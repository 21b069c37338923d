import Patchwork.Proofs.Archive.Source
import Patchwork.Proofs.Digest.Gate

/-!
# Files that are only read

Extracting an archive reads one file, and asking the gate reads others.  None of them is changed, unless it is
where something is written or cleared away, or is reached by way of a link that a record takes the place of.
-/
namespace Patchwork.Gate

open Volume Disk

variable {u v w : Volume} {content record path : Text} {bytes c : Bytes} {p q : Place}

/-! ### What a call on a record changes -/

/-- The directories above the record are made, if any, and then at most one item is changed, the one that the
record's path names. -/
def Touches (record : Text) (v w : Volume) : Prop :=
  ∃ u, (u = v ∨ u = dirsMade v record) ∧
    (SameItems u w ∨ ∃ q, u.locate .entry record = .ok q ∧ Replaced u w q)

theorem touches_writeAtomic {r : Except Fault Unit} (hv : v.Sound)
    (h : on v (writeAtomic record c) = (r, w)) : Touches record v w ∧ (r = .ok () → w.Sound) := by
  rcases writeAtomic_cases hv h with ⟨f, rfl, hsame⟩ | ⟨rfl, hsound, q, hq, hreplaced, -⟩
  · exact ⟨⟨_, .inr rfl, .inl hsame⟩, nofun⟩
  · exact ⟨⟨_, .inr rfl, .inr ⟨q, hq, hreplaced⟩⟩, fun _ => hsound⟩

theorem touches_forget {r : Except Fault Unit} (hv : v.Sound) (h : on v (forget record) = (r, w)) :
    Touches record v w ∧ (r = .ok () → w.Sound) := by
  cases r with
  | error f =>
    rw [forget_eq_error h]
    exact ⟨⟨v, .inl rfl, .inl (.refl v)⟩, nofun⟩
  | ok =>
    simp only [on, ExceptT.run, forget] at h
    split at h
    · next hw =>
      cases h
      obtain ⟨q, hq, hdir, rfl⟩ := removeFile_eq_ok hw
      have hreplaced : Replaced v (v.erase q) q :=
        ⟨rfl, hdir, .inl (item?_erase_self hdir), fun r hr => hv.item?_erase hdir hr⟩
      exact ⟨⟨v, .inl rfl, .inr ⟨q, hq, hreplaced⟩⟩, fun _ => hv.erase hdir⟩
    · split at h <;> cases h
      exact ⟨⟨v, .inl rfl, .inl (.refl v)⟩, fun _ => hv⟩

/-- What is answered behind a program does not matter. -/
theorem on_bind_pure {α : Type} {d : Disk Fault Unit} {a : α} {r : Except Fault α}
    (h : on v (do d; pure a) = (r, w)) : on v d = (r.map fun _ => (), w) := by
  rcases on_bind_cases h with ⟨f, hd, rfl⟩ | ⟨⟨⟩, u, hd, hpure⟩
  · exact hd
  · cases hpure
    exact hd

theorem Called.touches {r : Except Fault Unit} (h : Called content record v r w) (hv : v.Sound) :
    Touches record v w ∧ (r = .ok () → w.Sound) := by
  have hnothing : Touches record v v ∧ (r = .ok () → v.Sound) := ⟨⟨v, .inl rfl, .inl (.refl v)⟩, fun _ => hv⟩
  cases h with
  | check h =>
    cases hc : v.read content with
    | ok bytes =>
      rw [on_isUnchanged_of_read hc] at h
      split at h
      · obtain rfl : v = w := (Prod.mk.inj h).2
        exact hnothing
      · exact touches_writeAtomic hv (on_bind_pure h)
    | error e =>
      rw [on_isUnchanged_of_unreadable hc] at h
      exact touches_forget hv (on_bind_pure h)
  | refresh h =>
    rcases on_bind_cases h with ⟨f, hdigest, rfl⟩ | ⟨d, u, hdigest, h⟩
    · obtain rfl : v = w := (Prod.mk.inj hdigest).2
      exact hnothing
    · obtain rfl : v = u := (Prod.mk.inj hdigest).2
      exact touches_writeAtomic hv (on_bind_pure h)

/-! ### What a call spares -/

/-- The record is not put at a place. -/
def PutElsewhere (v : Volume) (record : Text) (p : Place) : Prop :=
  ∀ q, (dirsMade v record).locate .entry record = .ok q → q ≠ p

/-- The record does not take the place of a link that leads to a directory or to a place. -/
def LeavesWays (v : Volume) (record : Text) (p : Place) : Prop :=
  ∀ q s, (dirsMade v record).locate .entry record = .ok q → LinkTo (dirsMade v record) q s →
    (dirsMade v record).item? s ≠ some .dir ∧ s ≠ p

theorem putElsewhere_of_locate (h : (dirsMade v record).locate .entry record = .ok q) (hq : q ≠ p) :
    PutElsewhere v record p := by
  intro r hr
  rw [h] at hr
  cases hr
  exact hq

/-- A record that is no link leaves all ways as they are. -/
theorem leavesWays_of_locate (h : (dirsMade v record).locate .entry record = .ok q)
    (hq : ∀ t, (dirsMade v record).item? q ≠ some (.link t)) : LeavesWays v record p := by
  intro r s hr hs
  rw [h] at hr
  cases hr
  exact absurd hs (not_linkTo hq)

theorem linkTo_grow {s : Place} (hg : Grows u v) (h : LinkTo u q s) : LinkTo v q s := by
  obtain ⟨target, n, hi, hlead⟩ := h
  exact ⟨target, n, hg.kept q _ hi, hlead.keep hg.keeps⟩

theorem Touches.item? (h : Touches record v w) (he : PutElsewhere v record p)
    (hp : v.item? p = some (.file c)) : w.item? p = some (.file c) := by
  have hg := grows_dirsMade v record
  obtain ⟨u, hu, hsame | ⟨q, hq, hreplaced⟩⟩ := h
  · rw [hsame.kept]
    rcases hu with rfl | rfl
    · exact hp
    · exact hg.kept p _ hp
  · rcases hu with rfl | rfl
    · rw [hreplaced.kept p (he q (hg.locate hq)).symm, hp]
    · rw [hreplaced.kept p (he q hq).symm, hg.kept p _ hp]

theorem Touches.find (h : Touches record v w) (he : PutElsewhere v record p) (hl : LeavesWays v record p)
    (hf : v.find .item path = .ok (p, .file c)) : w.find .item path = .ok (p, .file c) := by
  have hg := grows_dirsMade v record
  obtain ⟨u, hu, hsame | ⟨q, hq, hreplaced⟩⟩ := h
  · rw [hsame.find]
    rcases hu with rfl | rfl
    · exact hf
    · exact hg.find hf
  · rcases hu with rfl | rfl
    · have hq' := hg.locate hq
      refine hreplaced.find hf (he q hq').symm (fun s hs hdir => ?_) fun hs => (hl q p hq' (linkTo_grow hg hs)).2 rfl
      exact (hl q s hq' (linkTo_grow hg hs)).1 (hg.kept s _ hdir)
    · exact hreplaced.find (hg.find hf) (he q hq).symm (fun s hs => (hl q s hq hs).1)
        fun hs => (hl q p hq hs).2 rfl

/-! ### Runs over several contents -/

/-- Something holds of each record when the gate comes to it. -/
def Throughout (P : Volume → Text → Prop) (v : Volume) : List (Text × Text) → Prop
  | [] => True
  | (content, record) :: rest =>
    P v record ∧ ∀ b w, on v (isUnchanged content record) = (.ok b, w) → Throughout P w rest

/-- What every call keeps is kept by a run, whether the run is finished or not. -/
theorem allUnchanged_keeps {P : Volume → Text → Prop} {Q : Volume → Prop} {pairs : List (Text × Text)}
    {r : Except Fault Bool} (hstep : ∀ v w record, Q v → P v record → Touches record v w → Q w)
    (hv : v.Sound) (hq : Q v) (hp : Throughout P v pairs) (h : on v (allUnchanged pairs) = (r, w)) : Q w := by
  induction pairs generalizing v r with
  | nil =>
    obtain rfl : v = w := (Prod.mk.inj h).2
    exact hq
  | cons pair pairs ih =>
    obtain ⟨content, record⟩ := pair
    obtain ⟨hfirst, hrest⟩ := hp
    rw [allUnchanged] at h
    rcases on_bind_cases h with ⟨f, hcheck, -⟩ | ⟨same, u, hcheck, h⟩
    · exact hstep v w record hq hfirst ((Called.check hcheck).touches hv).1
    · obtain ⟨htouches, hsound⟩ := (Called.check hcheck).touches hv
      have hu := hsound rfl
      have hqu := hstep v u record hq hfirst htouches
      rcases on_bind_cases h with ⟨f, hothers, -⟩ | ⟨others, x, hothers, h⟩
      · exact ih hu hqu (hrest same u hcheck) hothers
      · obtain rfl : x = w := (Prod.mk.inj h).2
        exact ih hu hqu (hrest same u hcheck) hothers

/-- Files that are only read hold what they held, whatever comes of the operation, and whatever the paths are: the
archive that is extracted, if it is out of reach of the directory that is cleared, and any file while the gate is
asked about it or another one, if no record is put where it stands.  They are found at their paths as before,
unless clearing cuts the path or a record takes the place of a link on it. -/
theorem readers_spare (hv : v.Sound) :
    (∀ source dir f s c r w, v.find .item source = .ok (s, .file c) → Tree.OutOfReach v dir s →
      on v (Archive.extractAt source dir f) = (r, w) → w.item? s = some (.file c) ∧
        ((∀ r u, on v (Tree.clearDir dir) = (r, u) → u.find .item source = .ok (s, .file c)) →
          w.find .item source = .ok (s, .file c))) ∧
    (∀ content record path p c r w, v.find .item path = .ok (p, .file c) → PutElsewhere v record p →
      Called content record v r w → w.item? p = some (.file c) ∧
        (LeavesWays v record p → w.find .item path = .ok (p, .file c))) ∧
    ∀ pairs path p c r w, v.find .item path = .ok (p, .file c) → Throughout (PutElsewhere · · p) v pairs →
      on v (allUnchanged pairs) = (r, w) → w.item? p = some (.file c) ∧
        (Throughout (fun u record => PutElsewhere u record p ∧ LeavesWays u record p) v pairs →
          w.find .item path = .ok (p, .file c)) := by
  refine ⟨fun source dir f s c r w hf hreach h => Archive.extractAt_spares hv hf hreach h,
    fun content record path p c r w hf he h => ?_, fun pairs path p c r w hf he h => ?_⟩
  · obtain ⟨htouches, -⟩ := h.touches hv
    exact ⟨htouches.item? he (find_eq_ok_iff.mp hf).2, fun hl => htouches.find he hl hf⟩
  · refine ⟨?_, fun hboth => ?_⟩
    · exact allUnchanged_keeps (Q := fun u => u.item? p = some (.file c))
        (fun _ _ _ hq hp htouches => htouches.item? hp hq) hv (find_eq_ok_iff.mp hf).2 he h
    · exact allUnchanged_keeps (Q := fun u => u.find .item path = .ok (p, .file c))
        (fun _ _ _ hq hp htouches => htouches.find hp.1 hp.2 hq) hv hf hboth h

/-- A file beside an archive, and a directory with a file in it. -/
def besideArchive : Volume :=
  { Volume.empty with
    items := [([['o']], .dir), ([['o'], ['x']], .file [1]), ([['f']], .file (Zip.write [.file ['a'] [104]])),
      ([['c']], .file [2])] }

theorem noLink_besideArchive (q : Place) (t : Text) :
    (besideArchive.clear [['o']]).item? ([['o']] ++ q) ≠ some (.link t) := by
  intro hi
  have hmem := exists_mem_of_item? (by simp) (of_item?_clear hi)
  simp [besideArchive] at hmem

/-- The directory is cleared, and the records are made. -/
theorem readers_spare_besideArchive : besideArchive.Sound ∧
    (on besideArchive (Archive.extractAt ['f'] ['o'] .all)).2.read ['f'] =
      .ok (Zip.write [.file ['a'] [104]]) ∧
    (on besideArchive (isUnchanged ['c'] ['r'])).2.read ['c'] = .ok [2] ∧
    (on besideArchive (allUnchanged [(['c'], ['r']), (['c'], ['s'])])).2.read ['c'] = .ok [2] := by
  have hv : besideArchive.Sound := ⟨by decide, by decide, by decide⟩
  have ho : besideArchive.find .item ['o'] = .ok ([['o']], .dir) := rfl
  have hf : besideArchive.find .item ['f'] = .ok ([['f']], .file (Zip.write [.file ['a'] [104]])) := rfl
  have hc : besideArchive.find .item ['c'] = .ok ([['c']], .file [2]) := rfl
  have hreach : Tree.OutOfReach besideArchive ['o'] [['f']] := by
    intro w hclear
    rw [Tree.clearDir_of_find ho] at hclear
    cases hclear
    exact ⟨[['o']], rfl, by decide, noLink_besideArchive⟩
  have hway (r : Except Fault Unit) (u : Volume) (hclear : on besideArchive (Tree.clearDir ['o']) = (r, u)) :
      u.find .item ['f'] = .ok ([['f']], .file (Zip.write [.file ['a'] [104]])) := by
    rw [Tree.clearDir_of_find ho] at hclear
    cases hclear
    rfl
  have hr : (dirsMade besideArchive ['r']).locate .entry ['r'] = .ok [['r']] := rfl
  have hput : PutElsewhere besideArchive ['r'] [['c']] := putElsewhere_of_locate hr (by decide)
  have hnone : (dirsMade besideArchive ['r']).item? [['r']] = none := rfl
  have hlinks : LeavesWays besideArchive ['r'] [['c']] :=
    leavesWays_of_locate hr fun t ht => nomatch hnone.symm.trans ht
  have hs : (dirsMade (on besideArchive (isUnchanged ['c'] ['r'])).2 ['s']).locate .entry ['s'] = .ok [['s']] ∧
      (dirsMade (on besideArchive (isUnchanged ['c'] ['r'])).2 ['s']).item? [['s']] = none := by decide +kernel
  have hsecond (b : Bool) (w : Volume) (h : on besideArchive (isUnchanged ['c'] ['r']) = (.ok b, w)) :
      PutElsewhere w ['s'] [['c']] ∧ LeavesWays w ['s'] [['c']] := by
    rw [h] at hs
    exact ⟨putElsewhere_of_locate hs.1 (by decide),
      leavesWays_of_locate hs.1 fun t ht => nomatch hs.2.symm.trans ht⟩
  obtain ⟨hextract, hcall, hrun⟩ := readers_spare hv
  obtain ⟨-, hsource⟩ := hextract ['f'] ['o'] .all [['f']] _ _ _ hf hreach Prod.mk.eta.symm
  obtain ⟨-, hcontent⟩ := hcall ['c'] ['r'] ['c'] [['c']] _ _ _ hc hput (.check Prod.mk.eta.symm)
  obtain ⟨-, hcontents⟩ := hrun [(['c'], ['r']), (['c'], ['s'])] ['c'] [['c']] _ _ _ hc
    ⟨hput, fun b w h => ⟨(hsecond b w h).1, fun _ _ _ => trivial⟩⟩ Prod.mk.eta.symm
  exact ⟨hv, read_eq_ok_iff.mpr ⟨_, hsource hway⟩, read_eq_ok_iff.mpr ⟨_, hcontent hlinks⟩,
    read_eq_ok_iff.mpr ⟨_, hcontents ⟨⟨hput, hlinks⟩, fun b w h => ⟨hsecond b w h, fun _ _ _ => trivial⟩⟩⟩⟩

/-- An archive in a directory. -/
def inDirectory : Volume :=
  { Volume.empty with
    items := [([['d']], .dir), ([['d'], ['f']], .file (Zip.write [.file ['a'] [104]]))] }

/-- The archive is in the directory that it is extracted to, and the content is its own record. -/
theorem readers_destroy :
    inDirectory.read "d/f".toList = .ok (Zip.write [.file ['a'] [104]]) ∧
    (on inDirectory (Archive.extractAt "d/f".toList ['d'] .all)).1 = .ok ⟨1, 0⟩ ∧
    (on inDirectory (Archive.extractAt "d/f".toList ['d'] .all)).2.read "d/f".toList = .error (.os .noEntry) ∧
    untracked.read ['f'] = .ok [1] ∧
    (on untracked (isUnchanged ['f'] ['f'])).1 = .ok false ∧
    (on untracked (isUnchanged ['f'] ['f'])).2.read ['f'] = .ok (Digest.ofContent [1]).bytes :=
  ⟨by decide +kernel, by decide +kernel, by decide +kernel, by decide +kernel, by rfl, by decide +kernel⟩

end Patchwork.Gate
