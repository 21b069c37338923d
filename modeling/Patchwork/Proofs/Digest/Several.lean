import Patchwork.Proofs.Digest.Apart

/-!
# Several contents at once

The gate is asked about several contents one after the other, and each answer may change the volume.  If the records
keep clear of one another and of the contents, whichever of the directories above them are made, the answers are those
that each pair alone would have got at first, and in the end each record is what the gate leaves of it, whatever the
order.  Along a run the volume is the one in which only the directories above some records have been made, but for the
records that the gate came to.
-/
namespace Patchwork.Gate

open Volume Disk

variable {v w x : Volume} {bytes : Bytes} {q : Place} {b : Bool} {d : Digest}
  {rs : List Text} {o t : Text × Text} {pairs ts rest : List (Text × Text)}

/-! ### What a run leaves -/

/-- What the gate leaves of the record of a content. -/
def goal (v : Volume) (content : Text) : Except IoError Bytes :=
  match digest? v content with
  | some d => .ok d.bytes
  | none => .error (.os .noEntry)

/-- A content can be read, and its digest is in the record. -/
def Recorded (v : Volume) (o : Text × Text) : Prop := ∃ d, digest? v o.1 = some d ∧ v.read o.2 = .ok d.bytes

theorem recorded_iff : Recorded v o ↔
    ∃ bytes, v.read o.1 = .ok bytes ∧ v.read o.2 = .ok (Digest.ofContent bytes).bytes := by
  unfold Recorded Gate.digest?
  cases v.read o.1 <;> simp

theorem isUnchanged_eq_true_iff_recorded :
    on v (isUnchanged o.1 o.2) = (.ok true, w) ↔ w = v ∧ Recorded v o := by
  rw [isUnchanged_eq_true_iff, recorded_iff]

theorem answers_true_iff : (∃ u, on v (isUnchanged o.1 o.2) = (.ok true, u)) ↔ Recorded v o := by
  simp [isUnchanged_eq_true_iff_recorded]

theorem answer_iff (h : on v (isUnchanged o.1 o.2) = (.ok b, w)) : b = true ↔ Recorded v o := by
  rw [← answers_true_iff, h]
  simp

/-- A record of one of some contents has its name at a place. -/
def RecordAt (m : Volume) (ts : List (Text × Text)) (q : Place) : Prop := ∃ t ∈ ts, m.locate .entry t.2 = .ok q

/-- The second volume is the first one, but for the records of some contents: a digest stands there if the content
could be read at first, and nothing if not. -/
structure Follows (v m w : Volume) (ts : List (Text × Text)) : Prop where
  sound : w.Sound
  same : SameBut (RecordAt m ts) m w
  left : ∀ t ∈ ts, ∃ q, m.locate .entry t.2 = .ok q ∧ w.item? q = (digest? v t.1).map fun d => .file d.bytes

theorem follows_refl (hv : v.Sound) : Follows v v v [] := ⟨hv, ⟨rfl, fun _ _ => rfl⟩, nofun⟩

section

variable (ha : Apart v pairs) (hrs : rs ⊆ pairs.map (·.2)) (hts : ts ⊆ pairs)
include ha hrs hts

theorem Apart.not_comes_content (ho : o ∈ pairs) : ∀ q, RecordAt (made v rs) ts q → ¬ (made v rs).Comes o.1 q := by
  rintro q ⟨t, ht, hq⟩
  exact ha.contents rs hrs t (hts ht) o ho q hq

theorem Apart.not_comes_record (ho : o ∈ pairs) (hother : ∀ t ∈ ts, t.2 ≠ o.2) :
    ∀ q, RecordAt (made v rs) ts q → ¬ (made v rs).Comes o.2 q := by
  rintro q ⟨t, ht, hq⟩
  exact ha.records rs hrs t (hts ht) o ho (hother t ht) q hq

variable (hf : Follows v (made v rs) w ts)
include hf

/-- A content can be read as at first. -/
theorem Follows.content (ho : o ∈ pairs) : w.read o.1 = (made v rs).read o.1 :=
  hf.same.read (ha.not_comes_content hrs hts ho)

theorem Follows.digest? (ho : o ∈ pairs) : digest? w o.1 = digest? v o.1 := by
  rw [← ha.digest? hrs ho, Gate.digest?, hf.content ha hrs hts ho]
  rfl

/-- A record that the gate has not changed is as it was. -/
theorem Follows.unchanged (ho : o ∈ pairs) (hother : ∀ t ∈ ts, t.2 ≠ o.2) : w.read o.2 = v.read o.2 := by
  rw [← ha.hidden rs hrs o ho]
  exact hf.same.read (ha.not_comes_record hrs hts ho hother)

/-- A record that the gate has changed is what it leaves of it. -/
theorem Follows.changed (hv : v.Sound) (ht : t ∈ ts) : w.read t.2 = goal v t.1 := by
  obtain ⟨q, hq, hitem⟩ := hf.left t ht
  have hnone : FileOrNone (made v rs) t.2 := by
    rw [FileOrNone, ha.hidden rs hrs t (hts ht)]
    exact ha.file t (hts ht)
  have hleft : w.item? q = none ∨ ∃ c, w.item? q = some (.file c) := by
    rw [hitem]
    cases Gate.digest? v t.1 with
    | none => exact .inl rfl
    | some d => exact .inr ⟨_, rfl⟩
  have hto : w.locate .item t.2 = .ok q := by
    refine hf.same.locate_self ((grows_made v rs).sound hv) hnone hq hleft ?_
    rintro r ⟨t', ht', hr⟩ hne
    refine ha.records rs hrs t' (hts ht') t (hts ht) (fun hsame => hne ?_) r hr
    exact Except.ok.inj (hr.symm.trans (hsame ▸ hq))
  rw [Volume.read, openFile, Volume.find, hto]
  dsimp only
  rw [hitem, goal]
  cases Gate.digest? v t.1 <;> rfl

/-- Something has been changed at the place of a further record, and nowhere else. -/
theorem Follows.concat (hx : x.Sound) (hsame : Replaced w x q) (ho : o ∈ pairs)
    (hother : ∀ t ∈ ts, t.2 ≠ o.2) (hq : (made v rs).locate .entry o.2 = .ok q)
    (hitem : x.item? q = (Gate.digest? v o.1).map fun d => .file d.bytes) : Follows v (made v rs) x (ts ++ [o]) := by
  have hapart (r : Place) (hr : RecordAt (made v rs) ts r) : r ≠ q := by
    rintro rfl
    exact ha.not_comes_record hrs hts ho hother r hr (comes_of_locate hq)
  refine ⟨hx, ⟨hsame.here.trans hf.same.here, fun r hr => ?_⟩, fun t ht => ?_⟩
  · have hrq : r ≠ q := by
      rintro rfl
      exact hr ⟨o, by simp, hq⟩
    rw [hsame.kept r hrq]
    refine hf.same.kept r ?_
    rintro ⟨t, ht, htr⟩
    exact hr ⟨t, List.mem_append_left _ ht, htr⟩
  · rcases List.mem_append.mp ht with ht | ht
    · obtain ⟨r, hr, hleft⟩ := hf.left t ht
      exact ⟨r, hr, (hsame.kept r (hapart r ⟨t, ht, hr⟩)).trans hleft⟩
    · rw [List.mem_singleton.mp ht]
      exact ⟨q, hq, hitem⟩

/-- A record that is taken away is the next one that the gate has changed, unless there was none. -/
theorem Follows.forget (ho : o ∈ pairs) (hother : ∀ t ∈ ts, t.2 ≠ o.2) (hc : Gate.digest? v o.1 = none)
    (h : on w (Gate.forget o.2) = (.ok (), x)) :
    x = w ∧ v.read o.2 = .error (.os .noEntry) ∨ Follows v (made v rs) x (ts ++ [o]) := by
  have hread := hf.unchanged ha hrs hts ho hother
  have hnone : FileOrNone w o.2 := by
    rw [FileOrNone, hread]
    exact ha.file o ho
  obtain ⟨hx, hgone⟩ := forgotten hf.sound hnone h
  simp only [on, ExceptT.run, Gate.forget] at h
  split at h
  · next hw =>
    cases h
    obtain ⟨q, hq, hdir, rfl⟩ := removeFile_eq_ok hw
    have hself := item?_erase_self hdir
    have hreplaced : Replaced w (w.erase q) q :=
      ⟨rfl, hdir, .inl hself, fun r hr => hf.sound.item?_erase hdir hr⟩
    rw [hf.same.locate (ha.not_comes_record hrs hts ho hother)] at hq
    exact .inr (hf.concat ha hrs hts hx hreplaced ho hother hq (by rw [hself, hc]; rfl))
  · split at h
    · cases h
      exact .inl ⟨rfl, hread.symm.trans hgone⟩
    · cases h

/-- A record that is written is the next one that the gate has changed, once the directories above it are made. -/
theorem Follows.write (ho : o ∈ pairs) (hother : ∀ t ∈ ts, t.2 ≠ o.2) (hc : Gate.digest? v o.1 = some d)
    (h : on w (writeAtomic o.2 d.bytes) = (.ok (), x)) : Follows v (made v (rs ++ [o.2])) x (ts ++ [o]) := by
  have hrs' : rs ++ [o.2] ⊆ pairs.map (·.2) :=
    List.append_subset.mpr ⟨hrs, by simpa using ⟨o.1, ho⟩⟩
  have hgrow : Grows (made v rs) (made v (rs ++ [o.2])) := by
    rw [made_concat]
    exact grows_dirsMade _ _
  have hplaces (r : Place) (hr : RecordAt (made v rs) ts r) : RecordAt (made v (rs ++ [o.2])) ts r := by
    obtain ⟨t, ht, hr⟩ := hr
    exact ⟨t, ht, hgrow.locate hr⟩
  have hclear (r : Place) (hr : RecordAt (made v rs) ts r) : ¬ (made v (rs ++ [o.2])).Comes o.2 r :=
    ha.not_comes_record hrs' hts ho hother r (hplaces r hr)
  rcases writeAtomic_cases hf.sound h with ⟨f, hfail, -⟩ | ⟨-, hx, q, hq, hreplaced, hself⟩
  · cases hfail
  have hstep : InStep (RecordAt (made v rs) ts) w (made v (rs ++ [o.2])) (dirsMade w o.2) := by
    rw [made_concat] at hclear ⊢
    exact hf.same.dirsMade hclear
  have hf' : Follows v (made v (rs ++ [o.2])) (dirsMade w o.2) ts := by
    refine ⟨(grows_dirsMade w o.2).sound hf.sound, hstep.same.mono hplaces, fun t ht => ?_⟩
    obtain ⟨r, hr, hleft⟩ := hf.left t ht
    exact ⟨r, hgrow.locate hr, (hstep.left r ⟨t, ht, hr⟩).trans hleft⟩
  rw [hstep.same.locate hclear] at hq
  exact hf'.concat ha hrs' hts hx hreplaced ho hother hq (by rw [hself, hc]; rfl)

/-- A call on a further pair answers what it would have answered at first.  It changes the record, unless this was
already what the gate leaves of it. -/
theorem Follows.step (ho : o ∈ pairs) (hother : ∀ t ∈ ts, t.2 ≠ o.2)
    (h : on w (isUnchanged o.1 o.2) = (.ok b, x)) : (b = true ↔ Recorded v o) ∧
      ∃ rs' ts', rs' ⊆ pairs.map (·.2) ∧ Follows v (made v rs') x ts' ∧
        (ts' = ts ∧ v.read o.2 = goal v o.1 ∨ ts' = ts ++ [o]) := by
  have hread := hf.unchanged ha hrs hts ho hother
  have hdigest := hf.digest? ha hrs hts ho
  refine ⟨?_, ?_⟩
  · rw [answer_iff h, Recorded, hdigest, hread]
    rfl
  cases hc : w.read o.1 with
  | error e =>
    rw [on_isUnchanged_of_unreadable hc] at h
    obtain ⟨⟨⟩, u, hforget, hpure⟩ := on_bind_eq_ok h
    cases hpure
    have hnone : Gate.digest? v o.1 = none := by rw [← hdigest, Gate.digest?, hc]
    rcases hf.forget ha hrs hts ho hother hnone hforget with ⟨rfl, hgone⟩ | hx
    · exact ⟨rs, ts, hrs, hf, .inl ⟨rfl, by rw [hgone, goal, hnone]⟩⟩
    · exact ⟨rs, _, hrs, hx, .inr rfl⟩
  | ok bytes =>
    have hsome : Gate.digest? v o.1 = some (.ofContent bytes) := by rw [← hdigest, Gate.digest?, hc]
    rw [on_isUnchanged_of_read hc] at h
    split at h
    · next hrec =>
      cases h
      exact ⟨rs, ts, hrs, hf, .inl ⟨rfl, by rw [← hread, hrec, goal, hsome]⟩⟩
    · obtain ⟨⟨⟩, u, hwrite, hpure⟩ := on_bind_eq_ok h
      cases hpure
      exact ⟨rs ++ [o.2], _, List.append_subset.mpr ⟨hrs, by simpa using ⟨o.1, ho⟩⟩,
        hf.write ha hrs hts ho hother hsome hwrite, .inr rfl⟩

end

/-- A run over further pairs answers what all of them would have answered at first, and comes to each of them.  By
induction on these pairs; no record is come to twice, so that each is as it was at first when it is asked about. -/
theorem Follows.run (ha : Apart v pairs) (hrs : rs ⊆ pairs.map (·.2)) (hts : ts ⊆ pairs)
    (hf : Follows v (made v rs) w ts) (hrest : rest ⊆ pairs) (hnodup : (rest.map (·.2)).Nodup)
    (hother : ∀ o ∈ rest, ∀ t ∈ ts, t.2 ≠ o.2) (h : on w (allUnchanged rest) = (.ok b, x)) :
    (b = true ↔ ∀ o ∈ rest, Recorded v o) ∧ ∃ rs' ts', rs' ⊆ pairs.map (·.2) ∧ ts' ⊆ pairs ∧
      Follows v (made v rs') x ts' ∧ ts ⊆ ts' ∧ ∀ o ∈ rest, o ∈ ts' ∨ v.read o.2 = goal v o.1 := by
  induction rest generalizing w rs ts b with
  | nil =>
    cases h
    exact ⟨by simp, rs, ts, hrs, hts, hf, fun t ht => ht, nofun⟩
  | cons o rest ih =>
    obtain ⟨same, u, hcall, h⟩ := on_bind_eq_ok h
    obtain ⟨others, y, hothers, hpure⟩ := on_bind_eq_ok h
    cases hpure
    obtain ⟨ho, hrest⟩ := List.cons_subset.mp hrest
    obtain ⟨hnew, hnodup⟩ := List.nodup_cons.mp hnodup
    obtain ⟨hanswer, rs', ts', hrs', hf', hcame⟩ :=
      hf.step ha hrs hts ho (hother o List.mem_cons_self) hcall
    have hts' : ts' ⊆ pairs ∧ ts ⊆ ts' ∧ ∀ t ∈ ts', t ∈ ts ∨ t = o := by
      rcases hcame with ⟨rfl, -⟩ | rfl
      · exact ⟨hts, fun t ht => ht, fun t ht => .inl ht⟩
      · exact ⟨List.append_subset.mpr ⟨hts, by simpa using ho⟩, List.subset_append_left .., by simp⟩
    have hother' (o' : Text × Text) (ho' : o' ∈ rest) (t : Text × Text) (ht : t ∈ ts') : t.2 ≠ o'.2 := by
      rcases hts'.2.2 t ht with ht | rfl
      · exact hother o' (List.mem_cons_of_mem o ho') t ht
      · exact fun he => hnew (List.mem_map.mpr ⟨o', ho', he.symm⟩)
    obtain ⟨hall, rs'', ts'', hrs'', hts'', hf'', hmore, hlast⟩ :=
      ih hrs' hts'.1 hf' hrest hnodup hother' hothers
    refine ⟨by simp [hanswer, hall], rs'', ts'', hrs'', hts'', hf'', fun t ht => hmore (hts'.2.1 ht), fun o' ho' => ?_⟩
    rcases List.mem_cons.mp ho' with rfl | ho'
    · rcases hcame with ⟨-, hgoal⟩ | rfl
      · exact .inr hgoal
      · exact .inl (hmore (by simp))
    · exact hlast o' ho'

/-- What a run over all pairs leaves of a pair. -/
theorem Follows.goals (hv : v.Sound) (ha : Apart v pairs) (hrs : rs ⊆ pairs.map (·.2)) (hts : ts ⊆ pairs)
    (hf : Follows v (made v rs) w ts) (hcame : ∀ o ∈ pairs, o ∈ ts ∨ v.read o.2 = goal v o.1) (ho : o ∈ pairs) :
    w.read o.2 = goal v o.1 := by
  by_cases hin : o ∈ ts
  · exact hf.changed ha hrs hts hv hin
  · have hother (t : Text × Text) (ht : t ∈ ts) : t.2 ≠ o.2 := fun he =>
      hin (List.inj_on_of_nodup_map ha.nodup (hts ht) ho he ▸ ht)
    rw [hf.unchanged ha hrs hts ho hother]
    exact (hcame o ho).resolve_left hin

/-- What a call on several pairs leaves of each of them. -/
structure Settled (v w : Volume) (o : Text × Text) : Prop where
  /-- The content can be read as before, or still not. -/
  content : ∀ bytes, w.read o.1 = .ok bytes ↔ v.read o.1 = .ok bytes
  record : ∀ bytes, v.read o.1 = .ok bytes → w.read o.2 = .ok (Digest.ofContent bytes).bytes
  absent : ∀ e, v.read o.1 = .error e → w.read o.2 = .error (.os .noEntry)

theorem Settled.of_goal (hdigest : ∀ bytes, w.read o.1 = .ok bytes ↔ v.read o.1 = .ok bytes)
    (hrecord : w.read o.2 = goal v o.1) : Settled v w o where
  content := hdigest
  record bytes hread := by simp only [hrecord, goal, digest?, hread]
  absent e hread := by simp only [hrecord, goal, digest?, hread]

/-- The answer is that of every pair alone, and each pair is settled. -/
theorem on_allUnchanged (hv : v.Sound) (ha : Apart v pairs) (h : on v (allUnchanged pairs) = (.ok b, w)) :
    (b = true ↔ ∀ o ∈ pairs, Recorded v o) ∧ ∀ o ∈ pairs, Settled v w o := by
  obtain ⟨hanswer, rs, ts, hrs, hts, hf, -, hcame⟩ :=
    Follows.run ha (List.nil_subset _) (List.nil_subset _) (follows_refl hv) (fun o ho => ho) ha.nodup nofun h
  refine ⟨hanswer, fun o ho => .of_goal (fun bytes => ?_) (hf.goals hv ha hrs hts hcame ho)⟩
  rw [hf.content ha hrs hts ho]
  exact ⟨ha.unread rs hrs o ho bytes, (grows_made v rs).read⟩

/-- A call on several pairs answers yes just when each of them would, and then changes nothing. -/
theorem allUnchanged_eq_true_iff :
    on v (allUnchanged pairs) = (.ok true, w) ↔ w = v ∧ ∀ o ∈ pairs, Recorded v o := by
  induction pairs with
  | nil =>
    constructor
    · intro h
      cases h
      exact ⟨rfl, nofun⟩
    · rintro ⟨rfl, -⟩
      rfl
  | cons o rest ih =>
    rw [List.forall_mem_cons]
    constructor
    · intro h
      obtain ⟨same, u, hcall, h⟩ := on_bind_eq_ok h
      obtain ⟨others, y, hothers, hpure⟩ := on_bind_eq_ok h
      obtain ⟨hboth, rfl⟩ := Prod.mk.inj hpure
      obtain ⟨rfl, rfl⟩ : same = true ∧ others = true := by simpa using hboth
      obtain ⟨rfl, hfirst⟩ := isUnchanged_eq_true_iff_recorded.mp hcall
      obtain ⟨rfl, hrest⟩ := ih.mp hothers
      exact ⟨rfl, hfirst, hrest⟩
    · rintro ⟨rfl, hfirst, hrest⟩
      have hcall : on w (isUnchanged o.1 o.2) = (.ok true, w) := isUnchanged_eq_true_iff_recorded.mpr ⟨rfl, hfirst⟩
      rw [allUnchanged, on_bind, hcall]
      dsimp only
      rw [on_bind, ih.mpr ⟨rfl, hrest⟩]
      rfl

/-- A pair that is settled has its digest in the record just if the content can be read. -/
theorem Settled.recorded_iff (h : Settled v w o) : Recorded w o ↔ ∃ bytes, v.read o.1 = .ok bytes := by
  rw [Gate.recorded_iff]
  constructor
  · rintro ⟨bytes, hread, -⟩
    exact ⟨bytes, (h.content bytes).mp hread⟩
  · rintro ⟨bytes, hread⟩
    exact ⟨bytes, (h.content bytes).mpr hread, h.record bytes hread⟩

/-- Two orders that leave a pair settled leave it the same. -/
theorem Settled.agree (h : Settled v w o) (h' : Settled v x o) :
    (∀ bytes, x.read o.1 = .ok bytes ↔ w.read o.1 = .ok bytes) ∧ x.read o.2 = w.read o.2 := by
  refine ⟨fun bytes => (h'.content bytes).trans (h.content bytes).symm, ?_⟩
  cases hc : v.read o.1 with
  | ok bytes => rw [h.record bytes hc, h'.record bytes hc]
  | error e => rw [h.absent e hc, h'.absent e hc]

/-- A call that succeeds on records that keep apart answers yes just when every pair alone would have, and settles
every pair: the record of each content that could be read is its digest, and there is no other record.  Every other
order that succeeds gives the same answer and leaves the same.  A further call answers yes just if all contents can be
read, and then changes nothing. -/
theorem allUnchanged_settles (hv : v.Sound) (ha : Apart v pairs) (h : on v (allUnchanged pairs) = (.ok b, w)) :
    (b = true ↔ ∀ o ∈ pairs, ∃ u, on v (isUnchanged o.1 o.2) = (.ok true, u)) ∧
    (∀ o ∈ pairs, Settled v w o) ∧
    (∀ others c x, others.Perm pairs → on v (allUnchanged others) = (.ok c, x) →
      c = b ∧ ∀ o ∈ pairs, (∀ bytes, x.read o.1 = .ok bytes ↔ w.read o.1 = .ok bytes) ∧ x.read o.2 = w.read o.2) ∧
    ((∃ x, on w (allUnchanged pairs) = (.ok true, x)) ↔ ∀ o ∈ pairs, ∃ bytes, v.read o.1 = .ok bytes) := by
  obtain ⟨hanswer, hsettled⟩ := on_allUnchanged hv ha h
  refine ⟨?_, hsettled, fun others c x hperm hx => ?_, ?_⟩
  · simp only [hanswer, answers_true_iff]
  · obtain ⟨hanswer', hsettled'⟩ := on_allUnchanged hv (ha.perm hperm) hx
    refine ⟨?_, fun o ho => (hsettled o ho).agree (hsettled' o (hperm.symm.subset ho))⟩
    rw [Bool.eq_iff_iff, hanswer, hanswer']
    exact ⟨fun hall o ho => hall o (hperm.symm.subset ho), fun hall o ho => hall o (hperm.subset ho)⟩
  · simp only [allUnchanged_eq_true_iff, exists_and_right, exists_eq, true_and]
    exact forall₂_congr fun o ho => (hsettled o ho).recorded_iff

/-- A directory in which one record is out of date, one is of a content that is missing, and one is missing with the
directory above it. -/
def workplace : Volume :=
  { Volume.empty with
    items := [(["w".toList], .dir), (["w".toList, "f".toList], .file [1]), (["w".toList, "s".toList], .file [9]),
      (["w".toList, "r".toList], .file [9]), (["w".toList, "k".toList], .file [2])] }

def workNames : List (Text × Text) :=
  [("f".toList, "s".toList), ("h".toList, "r".toList), ("k".toList, "d/t".toList)]

theorem stocked_workplace :
    Tree.Stocked workplace "w".toList ["w".toList] fun q => workplace.file? (["w".toList] ++ q) := by
  refine ⟨⟨by decide, by decide, by decide⟩, by decide +kernel, fun q t hq => ?_, fun q => rfl⟩
  have hmem := exists_mem_of_item? (by simp) hq
  simp [workplace] at hmem

theorem apart_workplace : Apart workplace (workNames.map (inside "w".toList)) := by
  have hspread : Spread workNames := ⟨by decide +kernel, by decide +kernel, by decide +kernel, by decide +kernel⟩
  have hfile (o : Text × Text) (ho : o ∈ workNames) : FileOrNone workplace (Path.join "w".toList o.2) := by
    simp only [workNames, List.mem_cons, List.not_mem_nil, or_false] at ho
    rcases ho with rfl | rfl | rfl
    · exact .inl ⟨[9], by decide +kernel⟩
    · exact .inl ⟨[9], by decide +kernel⟩
    · exact .inr (by decide +kernel)
  exact hspread.apart stocked_workplace (by decide +kernel) hfile

/-- Every record there is settled, and the gate says no once more, as one content is missing. -/
theorem allUnchanged_settles_workplace : ∃ w,
    on workplace (allUnchanged (workNames.map (inside "w".toList))) = (.ok false, w) ∧
    w.read "w/s".toList = .ok (Digest.ofContent [1]).bytes ∧ w.read "w/r".toList = .error (.os .noEntry) ∧
    w.read "w/d/t".toList = .ok (Digest.ofContent [2]).bytes ∧
    ¬ ∃ x, on w (allUnchanged (workNames.map (inside "w".toList))) = (.ok true, x) := by
  have hrun : (on workplace (allUnchanged (workNames.map (inside "w".toList)))).1 = .ok false := by decide +kernel
  obtain ⟨r, w, hw⟩ : ∃ r w, on workplace (allUnchanged (workNames.map (inside "w".toList))) = (r, w) := ⟨_, _, rfl⟩
  rw [hw] at hrun
  obtain rfl : r = .ok false := hrun
  obtain ⟨-, hsettled, -, hagain⟩ := allUnchanged_settles stocked_workplace.sound apart_workplace hw
  have hmissing : workplace.read "w/h".toList = .error (.os .noEntry) := by decide +kernel
  have hmem {o : Text × Text} (ho : o ∈ workNames) := hsettled _ (List.mem_map_of_mem ho)
  refine ⟨w, hw, ?_, ?_, ?_, fun hyes => ?_⟩
  · exact (hmem (by decide : ("f".toList, "s".toList) ∈ workNames)).record [1] (by decide +kernel)
  · exact (hmem (by decide : ("h".toList, "r".toList) ∈ workNames)).absent _ hmissing
  · exact (hmem (by decide : ("k".toList, "d/t".toList) ∈ workNames)).record [2] (by decide +kernel)
  · have hin : ("h".toList, "r".toList) ∈ workNames := by decide
    obtain ⟨bytes, hread⟩ := hagain.mp hyes _ (List.mem_map_of_mem hin)
    cases hmissing.symm.trans hread

/-- No path of a content or a record is another one, or above it. -/
def Unrelated (pairs : List (Text × Text)) : Prop :=
  (pairs.flatMap fun o => [o.1, o.2]).Pairwise fun f g =>
    ¬ Path.parts f <+: Path.parts g ∧ ¬ Path.parts g <+: Path.parts f

instance (pairs : List (Text × Text)) : Decidable (Unrelated pairs) := inferInstanceAs (Decidable (List.Pairwise _ _))

/-- Two files, and a link into a directory that is missing. -/
def shelf : Volume :=
  { Volume.empty with
    items := [(["f".toList], .file [1]), (["g".toList], .file [2]), (["l".toList], .link "d/y".toList)] }

/-- The directory above one record is on the way to another content. -/
def crossed : List (Text × Text) := [("f".toList, "d/r".toList), ("d/../g".toList, "s".toList)]

/-- The directory above one record is where the link above another one leads. -/
def linked : List (Text × Text) := [("f".toList, "d/y/r".toList), ("g".toList, "l/s".toList)]

/-- The order may tell where directories are made: a content is brought to light before it is looked for or after, and
a record can be written or not. -/
theorem order_tells : shelf.Sound ∧ Unrelated crossed ∧ Unrelated linked ∧
    (on shelf (allUnchanged crossed)).1 = .ok false ∧
    (on shelf (allUnchanged crossed)).2.read "s".toList = .ok (Digest.ofContent [2]).bytes ∧
    (on shelf (allUnchanged crossed.reverse)).1 = .ok false ∧
    (on shelf (allUnchanged crossed.reverse)).2.read "s".toList = .error (.os .noEntry) ∧
    (on shelf (allUnchanged crossed.reverse)).2.read "d/../g".toList = .ok [2] ∧
    (on (on shelf (allUnchanged crossed.reverse)).2 (allUnchanged crossed.reverse)).1 = .ok false ∧
    (on shelf (allUnchanged linked)).1 = .ok false ∧
    (on shelf (allUnchanged linked.reverse)).1.isOk = false :=
  ⟨⟨by decide, by decide, by decide⟩, by decide +kernel, by decide +kernel, by decide +kernel, by decide +kernel,
    by decide +kernel, by decide +kernel, by decide +kernel, by decide +kernel, by decide +kernel, by decide +kernel⟩

end Patchwork.Gate
