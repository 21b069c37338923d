import Patchwork.Proofs.Volume.Alike
import Patchwork.Proofs.Volume.Opened
import Patchwork.Proofs.Volume.Programs

/-!
# Replacing a file as a whole

What a file is written for may be a link, and other paths may lead through it.  They lead where they led
if the link leads neither to a directory nor to the file that they name.  The path of the file itself
tells this, once the directories above it are made.
-/
namespace Patchwork

namespace Volume

variable {u v w : Volume} {aim : Aim} {a p q r s : Place} {c : Bytes} {path : Text} {k n : Nat}
  {steps : List Step}

/-! ### Links -/

/-- There is a link at a place that leads to another one. -/
def LinkTo (v : Volume) (q r : Place) : Prop :=
  ∃ target n, v.item? q = some (.link target) ∧
    Leads v .item n (start q.dropLast target) (Step.ofPath target) r

/-- With any number of links allowed, steps lead where they lead or are given up. -/
theorem Leads.walkLinks_cases (h : Leads v aim n p steps q) (m : Nat) :
    v.walkLinks aim m p steps = .ok q ∨ v.walkLinks aim m p steps = .error .linkLoop := by
  induction h generalizing m with
  | done => exact .inl (walkLinks_of_leads .done)
  | stay hp hs _ ih =>
    rw [walkLinks_stay hp hs]
    exact ih m
  | up hp _ ih =>
    rw [walkLinks_up hp]
    exact ih m
  | absent he hi => exact .inl (walkLinks_of_leads (.absent he hi))
  | entry he hi haim => exact .inl (walkLinks_of_leads (.entry he hi haim))
  | link he hi hgo _ ih =>
    rw [walkLinks_link he hi hgo]
    cases m with
    | zero => exact .inr rfl
    | succ m => exact ih m
  | down he hi hlink _ ih =>
    rw [walkLinks_down he hi hlink]
    exact ih m

/-- Steps that name a link lead where it leads, if enough links may be followed. -/
theorem Leads.item_of_link {target : Text} (h : Leads v .entry n p steps q)
    (hp : ∀ t, v.item? p ≠ some (.link t)) (hv : v.Sound) (hq : v.item? q = some (.link target))
    (hr : Leads v .item k (start q.dropLast target) (Step.ofPath target) r) :
    Leads v .item (n + k + 1) p steps r := by
  induction h with
  | done => exact absurd hq (hp target)
  | stay hd hs _ ih => exact .stay hd hs (ih hp hq hr)
  | up hd _ ih =>
    refine .up hd (ih (fun t ht => ?_) hq hr)
    rw [hv.above hd] at ht
    cases ht
  | absent _ hi =>
    rw [hi] at hq
    cases hq
  | entry he hi =>
    rw [hi] at hq
    cases hq
    rw [List.dropLast_concat, ← List.append_nil (Step.ofPath target)] at hr
    exact .link ⟨he.dir, nofun, he.short⟩ hi nofun (hr.mono (Nat.le_add_left k _))
  | @link n p _ _ _ _ he hi _ _ ih =>
    have hgo := ih (fun t ht => by rw [item?_start he.dir] at ht; cases ht) hq hr
    have hcount : n + 1 + k + 1 = n + k + 1 + 1 := by omega
    rw [hcount]
    exact .link ⟨he.dir, nofun, he.short⟩ hi nofun hgo
  | down he hi hlink _ ih =>
    refine .down ⟨he.dir, nofun, he.short⟩ hi hlink (ih (fun t ht => ?_) hq hr)
    rw [hi] at ht
    exact hlink t (Option.some.inj ht)

/-- A path that names a link leads where it leads, unless it leads through too many links. -/
theorem LinkTo.locate (h : LinkTo v q r) (hv : v.Sound) (hq : v.locate .entry path = .ok q) :
    v.locate .item path = .ok r ∨ v.locate .item path = .error (.os .linkLoop) := by
  obtain ⟨target, k, hlink, hr⟩ := h
  obtain ⟨hu, hl⟩ := locate_eq_ok_iff.mp hq
  have hstart := locate_dir_start hq
  have hway := hl.item_of_link (fun t ht => by rw [hstart] at ht; cases ht) hv hlink hr
  rw [Volume.locate, if_neg hu.noNul, if_neg hu.ne_nil, if_neg hu.short]
  rcases hway.walkLinks_cases linkLimit with hgo | hgo
  · exact .inl (by rw [hgo]; rfl)
  · exact .inr (by rw [hgo]; rfl)

/-- A file is at the path, or nothing. -/
def FileOrNone (v : Volume) (path : Text) : Prop :=
  (∃ c, v.read path = .ok c) ∨ v.read path = .error (.os .noEntry)

theorem read_eq_ok_iff : v.read path = .ok c ↔ ∃ p, v.find .item path = .ok (p, .file c) := by
  unfold Volume.read openFile
  constructor
  · intro h
    split at h
    · next p content hf =>
      cases h
      exact ⟨p, hf⟩
    · cases h
    · cases h
  · rintro ⟨p, hf⟩
    rw [hf]
    rfl

theorem Grows.read (hg : Grows v w) (hread : v.read path = .ok c) : w.read path = .ok c := by
  obtain ⟨p, hp⟩ := read_eq_ok_iff.mp hread
  exact read_eq_ok_iff.mpr ⟨p, hg.find hp⟩

theorem read_of_find_dir (h : v.find .item path = .ok (p, .dir)) :
    v.read path = .error (.os .isDirectory) := by
  rw [Volume.read, openFile, h]
  rfl

theorem read_of_locate_error {e : IoError} (h : v.locate .item path = .error e) :
    v.read path = .error e := by
  rw [Volume.read, openFile, find, h]
  rfl

/-- The link at the end of a path to a file leads to the file. -/
theorem LinkTo.of_fileOrNone (h : LinkTo v q r) (hv : v.Sound) (hf : FileOrNone v path)
    (hq : v.locate .entry path = .ok q) :
    v.item? r ≠ some .dir ∧
      ∀ c, v.item? r = some (.file c) → v.find .item path = .ok (r, .file c) := by
  rcases h.locate hv hq with hl | hl
  · refine ⟨fun hdir => ?_, fun c hc => find_eq_ok_iff.mpr ⟨hl, hc⟩⟩
    have hread := read_of_find_dir (find_eq_ok_iff.mpr ⟨hl, hdir⟩)
    rcases hf with ⟨c, hc⟩ | hnone
    · rw [hread] at hc
      cases hc
    · rw [hread] at hnone
      cases hnone
  · have hread := read_of_locate_error hl
    rcases hf with ⟨c, hc⟩ | hnone
    · rw [hread] at hc
      cases hc
    · rw [hread] at hnone
      cases hnone

/-! ### One item for another -/

/-- Two volumes have the same items but at one place, where a file may stand in the second, and what is
no directory in the first. -/
structure Replaced (v w : Volume) (q : Place) : Prop where
  here : w.here = v.here
  before : v.item? q ≠ some .dir
  after : w.item? q = none ∨ ∃ c, w.item? q = some (.file c)
  kept : ∀ r, r ≠ q → w.item? r = v.item? r

theorem Replaced.dir (hw : Replaced v w q) (hp : v.item? p = some .dir) : w.item? p = some .dir := by
  rw [hw.kept p fun he => hw.before (he ▸ hp), hp]

theorem Replaced.enters (hw : Replaced v w q) {name : Text} (he : Enters v aim p name steps) :
    Enters w aim p name steps := ⟨hw.dir he.dir, he.noSlash, he.short⟩

theorem Replaced.last (hw : Replaced v w q) {name : Text} (he : Enters v aim p name [])
    (hq : p ++ [name] = q) : Leads w aim n p [.down name] q := by
  subst hq
  rcases hw.after with hnone | ⟨c, hc⟩
  · exact .absent (hw.enters he) hnone
  · exact .down (hw.enters he) hc (fun t ht => by cases ht) .done

/-- Ways lead where they led, unless they lead through a link that was replaced. -/
theorem Replaced.leads (hw : Replaced v w q) (h : Leads v aim n a steps r)
    (hdir : ∀ s, LinkTo v q s → v.item? s ≠ some .dir) (hend : aim ≠ .entry → ¬ LinkTo v q r) :
    Leads w aim n a steps r := by
  induction h with
  | done => exact .done
  | stay hp hs _ ih => exact .stay (hw.dir hp) hs (ih hend)
  | up hp _ ih => exact .up (hw.dir hp) (ih hend)
  | @absent _ p name he hi =>
    by_cases hq : p ++ [name] = q
    · rw [hq]
      exact hw.last he hq
    · exact .absent (hw.enters he) (by rw [hw.kept _ hq, hi])
  | @entry _ p name _ he hi haim =>
    by_cases hq : p ++ [name] = q
    · rw [hq]
      exact hw.last he hq
    · exact .entry (hw.enters he) (by rw [hw.kept _ hq, hi]) haim
  | @link n p r name target steps he hi hgo h ih =>
    by_cases hq : p ++ [name] = q
    · subst hq
      have hdrop : (p ++ [name]).dropLast = p := List.dropLast_concat
      by_cases hsteps : steps = []
      · subst hsteps
        rw [List.append_nil] at h
        have hto : Leads v .item n (start p target) (Step.ofPath target) r := by
          cases aim with
          | entry => exact absurd ⟨rfl, rfl⟩ hgo
          | item => exact h
          | file => exact h.item_of_file
        exact absurd ⟨target, n, hi, by rw [hdrop]; exact hto⟩ (hend fun haim => hgo ⟨rfl, haim⟩)
      · obtain ⟨s, m, hs, hm⟩ := h.split hsteps
        obtain ⟨t, more, rfl⟩ := List.exists_cons_of_ne_nil hsteps
        exact absurd hm.dir_start (hdir s ⟨target, n, hi, by rw [hdrop]; exact hs⟩)
    · exact .link (hw.enters he) (by rw [hw.kept _ hq, hi]) hgo (ih hend)
  | @down n p r name steps i he hi hlink h ih =>
    by_cases hq : p ++ [name] = q
    · cases steps with
      | nil =>
        cases h
        rw [hq]
        exact hw.last he hq
      | cons s steps => exact absurd (hq ▸ h.dir_start) hw.before
    · exact .down (hw.enters he) (by rw [hw.kept _ hq, hi]) hlink (ih hend)

theorem Replaced.locate (hw : Replaced v w q) (hl : v.locate aim path = .ok r)
    (hdir : ∀ s, LinkTo v q s → v.item? s ≠ some .dir) (hend : aim ≠ .entry → ¬ LinkTo v q r) :
    w.locate aim path = .ok r := by
  obtain ⟨hu, hlead⟩ := locate_eq_ok_iff.mp hl
  refine locate_eq_ok_iff.mpr ⟨hu, ?_⟩
  rw [hw.here]
  exact hw.leads hlead hdir hend

/-- A file that stands elsewhere is found where it was. -/
theorem Replaced.find (hw : Replaced v w q) (hf : v.find .item path = .ok (p, .file c)) (hp : p ≠ q)
    (hdir : ∀ s, LinkTo v q s → v.item? s ≠ some .dir) (hend : ¬ LinkTo v q p) :
    w.find .item path = .ok (p, .file c) := by
  obtain ⟨hl, hi⟩ := find_eq_ok_iff.mp hf
  exact find_eq_ok_iff.mpr ⟨hw.locate hl hdir fun _ => hend, by rw [hw.kept p hp, hi]⟩

/-- The path of what was replaced leads to what stands there now. -/
theorem Replaced.locate_self (hw : Replaced v w q) (hq : v.locate .entry path = .ok q)
    (hdir : ∀ s, LinkTo v q s → v.item? s ≠ some .dir) : w.locate .item path = .ok q := by
  obtain ⟨hu, hlead⟩ := locate_eq_ok_iff.mp (hw.locate hq hdir fun hne => absurd rfl hne)
  refine locate_eq_ok_iff.mpr ⟨hu, hlead.item_of_entry fun t ht => ?_⟩
  rcases hw.after with hnone | ⟨c, hc⟩
  · rw [hnone] at ht
    cases ht
  · rw [hc] at ht
    cases ht

/-- A way that comes by the place that was replaced ends there. -/
theorem Replaced.ends_here (hw : Replaced v w q) {name : Text} (hq : a ++ [name] = q)
    (h : Leads w .item n a (.down name :: steps) r) : r = q := by
  have hnolink (target : Text) : w.item? q ≠ some (.link target) := by
    rcases hw.after with hnone | ⟨c, hc⟩
    · rw [hnone]
      nofun
    · rw [hc]
      nofun
  subst hq
  cases h with
  | stay _ hs => exact absurd hs (not_idle_down _)
  | absent => rfl
  | entry _ hi => exact absurd hi (hnolink _)
  | link _ hi => exact absurd hi (hnolink _)
  | down _ _ _ h =>
    cases steps with
    | nil =>
      cases h
      rfl
    | cons s steps =>
      have hdir := h.dir_start
      rcases hw.after with hnone | ⟨c, hc⟩
      · rw [hnone] at hdir
        cases hdir
      · rw [hc] at hdir
        cases hdir

/-- A way that led to a file, or to what was replaced, leads there still, or to what stands in place of it,
if it leads anywhere. -/
theorem Replaced.leads_end (hw : Replaced v w q) (h : Leads v aim n a steps p)
    (hp : p = q ∨ ∃ c, v.item? p = some (.file c)) (h' : Leads w .item k a steps r) :
    r = p ∨ r = q := by
  induction h generalizing k with
  | done =>
    cases h'
    exact .inl rfl
  | stay _ hs _ ih => exact ih hp (h'.of_stay hs)
  | up _ _ ih => exact ih hp h'.of_up
  | @absent _ a name _ hi =>
    rcases hp with hq | ⟨c, hc⟩
    · exact .inr (hw.ends_here hq h')
    · rw [hi] at hc
      cases hc
  | @entry _ a name _ _ hi =>
    rcases hp with hq | ⟨c, hc⟩
    · exact .inr (hw.ends_here hq h')
    · rw [hi] at hc
      cases hc
  | @link n a p name target steps _ hi _ _ ih =>
    by_cases hq : a ++ [name] = q
    · exact .inr (hw.ends_here hq h')
    · obtain ⟨m, -, h'⟩ := h'.of_link (by rw [hw.kept _ hq, hi]) nofun
      exact ih hp h'
  | @down n a p name steps i _ hi hlink _ ih =>
    by_cases hq : a ++ [name] = q
    · exact .inr (hw.ends_here hq h')
    · exact ih hp (h'.of_down (by rw [hw.kept _ hq, hi]) hlink)

/-- A path that names what was replaced leads to what stands there now, if to anything. -/
theorem Replaced.find_self {i : Item} (hw : Replaced v w q) (hq : v.locate .entry path = .ok q)
    (hf : w.find .item path = .ok (r, i)) : r = q := by
  have hto := (locate_eq_ok_iff.mp (find_eq_ok_iff.mp hf).1).2
  rw [hw.here] at hto
  exact (hw.leads_end (locate_eq_ok_iff.mp hq).2 (.inl rfl) hto).elim id id

/-- A path that led to a file leads to that file or to the new one, if to anything. -/
theorem Replaced.find_file {i : Item} (hw : Replaced v w q) (hp : v.find .item path = .ok (p, .file c))
    (hf : w.find .item path = .ok (r, i)) : r = q ∨ i = .file c := by
  obtain ⟨hl, hi⟩ := find_eq_ok_iff.mp hp
  obtain ⟨hl', hi'⟩ := find_eq_ok_iff.mp hf
  have hto := (locate_eq_ok_iff.mp hl').2
  rw [hw.here] at hto
  by_cases hrq : r = q
  · exact .inl hrq
  · obtain rfl := (hw.leads_end (locate_eq_ok_iff.mp hl).2 (.inr ⟨c, hi⟩) hto).resolve_right hrq
    rw [hw.kept r hrq, hi] at hi'
    cases hi'
    exact .inr rfl

/-- A way to the name of a file leads to the file, unless it passes a link by that name. -/
theorem Replaced.leads_self (hw : Replaced v w q) (h : Leads v .entry n a steps q) :
    Leads w .item n a steps q ∨ PassesLink v q := by
  induction h with
  | done => exact .inl .done
  | stay hp hs _ ih => exact (ih hw).imp_left (.stay (hw.dir hp) hs)
  | up hp _ ih => exact (ih hw).imp_left (.up (hw.dir hp))
  | absent he => exact .inl (hw.last ⟨he.dir, nofun, he.short⟩ rfl)
  | entry he => exact .inl (hw.last ⟨he.dir, nofun, he.short⟩ rfl)
  | @link n a q name target steps he hi hgo h ih =>
    by_cases hq : a ++ [name] = q
    · subst hq
      refine .inr ⟨target, n, steps, hi, fun hnil => hgo ⟨hnil, rfl⟩, ?_⟩
      rw [List.dropLast_concat]
      exact h
    · have hi' : w.item? (a ++ [name]) = some (.link target) := by rw [hw.kept _ hq, hi]
      exact (ih hw).imp_left (.link ⟨hw.dir he.dir, nofun, he.short⟩ hi' nofun)
  | @down n a q name steps i he hi hlink h ih =>
    by_cases hq : a ++ [name] = q
    · cases steps with
      | nil => exact .inl (hw.last ⟨he.dir, nofun, he.short⟩ hq)
      | cons s steps => exact absurd (hq ▸ h.dir_start) hw.before
    · have hi' : w.item? (a ++ [name]) = some i := by rw [hw.kept _ hq, hi]
      exact (ih hw).imp_left (.down ⟨hw.dir he.dir, nofun, he.short⟩ hi' hlink)

/-- No way leads through a place where there is no link. -/
theorem not_linkTo (hq : ∀ t, v.item? q ≠ some (.link t)) : ¬ LinkTo v q s := by
  rintro ⟨t, -, ht, -⟩
  exact hq t ht

/-! ### The same items -/

/-- Two volumes have the same items everywhere. -/
structure SameItems (v w : Volume) : Prop where
  here : w.here = v.here
  kept : ∀ r, w.item? r = v.item? r

theorem SameItems.refl (v : Volume) : SameItems v v := ⟨rfl, fun _ => rfl⟩

theorem SameItems.alike (h : SameItems v w) (s : Place) : Alike s v w := ⟨h.here, fun r => .inl (h.kept r)⟩

theorem SameItems.find (h : SameItems v w) : w.find aim path = v.find aim path := by
  simp only [Volume.find, (h.alike []).locate, h.kept]

theorem SameItems.read (h : SameItems v w) : w.read path = v.read path := by
  have hfind : w.find .item path = v.find .item path := h.find
  unfold Volume.read openFile
  rw [hfind]
  split <;> rfl

/-- An empty file was made and is taken away again after it was filled. -/
theorem NewFile.sameItems {temp : Text} (hnew : NewFile u v temp p) (hg : Grows u v) (hv : v.Sound)
    (c : Bytes) : SameItems u ((v.put p (.file c)).erase p) := by
  obtain ⟨-, hi⟩ := find_eq_ok_iff.mp hnew.find
  obtain ⟨-, hnone, hothers⟩ := frame_filled hv hi c
  refine ⟨hg.here, fun r => ?_⟩
  by_cases hr : r = p
  · rw [hr, hnone, hnew.absent]
  · rw [hothers r hr, hnew.others r hr]

/-- An empty file was made and is taken away again as it was. -/
theorem NewFile.sameItems_erase {temp : Text} (hnew : NewFile u v temp p) (hg : Grows u v) (hv : v.Sound) :
    SameItems u (v.erase p) := by
  have hdir : v.item? p ≠ some .dir := by
    rw [(find_eq_ok_iff.mp hnew.find).2]
    exact nofun
  refine ⟨hg.here, fun r => ?_⟩
  by_cases hr : r = p
  · rw [hr, item?_erase_self hdir, hnew.absent]
  · rw [hv.item?_erase hdir hr, hnew.others r hr]

/-- Nothing but the temporary file's place tells the two volumes apart. -/
theorem NewFile.replaced {temp : Text} (hnew : NewFile u v temp p) (hg : Grows u v) : Replaced v u p := by
  obtain ⟨-, hi⟩ := find_eq_ok_iff.mp hnew.find
  refine ⟨hg.here.symm, ?_, .inl hnew.absent, fun r hr => (hnew.others r hr).symm⟩
  rw [hi]
  intro he
  cases he

/-- A file that is put in the place of what is no directory replaces it. -/
theorem replaced_put (hv : v.Sound) (hq : v.item? q ≠ some .dir) (c : Bytes) :
    Replaced v ((v.erase q).put q (.file c)) q ∧
      ((v.erase q).put q (.file c)).item? q = some (.file c) := by
  have hne : q ≠ [] := fun he => hq (by rw [he]; rfl)
  have hself : ((v.erase q).put q (.file c)).item? q = some (.file c) := by
    rw [item?_put _ q q _ hne, if_pos rfl]
  refine ⟨⟨rfl, hq, .inr ⟨c, hself⟩, fun r hr => ?_⟩, hself⟩
  rw [item?_put _ q r _ hne, if_neg hr, hv.item?_erase hq hr]

theorem SameItems.replaced (h : SameItems u v) (hw : Replaced v w q) : Replaced u w q :=
  ⟨hw.here.trans h.here, fun hd => hw.before (by rw [h.kept, hd]), hw.after,
    fun r hr => (hw.kept r hr).trans (h.kept r)⟩

end Volume

namespace Disk

open Volume

variable {u v w : Volume} {path : Text} {c : Bytes} {p q : Place}

/-- The volume once the directories above a path have been made, or some of them. -/
def dirsMade (v : Volume) (path : Text) : Volume := (on v (createDirAll (Path.directory path))).2

theorem grows_dirsMade (v : Volume) (path : Text) : Grows v (dirsMade v path) :=
  grows_createDirAll _ v

/-- A file is replaced as a whole, or all items are left as they are, once the directories above it are
made. -/
theorem writeAtomic_cases {r : Except Fault Unit} (hv : v.Sound)
    (h : on v (writeAtomic path c) = (r, w)) :
    (∃ e, r = .error e ∧ SameItems (dirsMade v path) w) ∨
      r = .ok () ∧ w.Sound ∧ ∃ q, (dirsMade v path).locate .entry path = .ok q ∧
        Replaced (dirsMade v path) w q ∧ w.item? q = some (.file c) := by
  have hsound := (grows_dirsMade v path).sound hv
  rcases on_bind_cases h with ⟨e, hdirs, rfl⟩ | ⟨⟨⟩, u, hdirs, h⟩
  · obtain ⟨e, hdirs⟩ := on_io_eq_error hdirs
    refine .inl ⟨_, rfl, ?_⟩
    rw [dirsMade, hdirs]
    exact .refl w
  · have hu : dirsMade v path = u := by rw [dirsMade, on_io_eq_ok hdirs]
    rw [hu] at hsound ⊢
    rcases on_bind_cases h with ⟨e, htemp, rfl⟩ | ⟨temp, x, htemp, h⟩
    · obtain ⟨e, htemp⟩ := on_io_eq_error htemp
      exact .inl ⟨_, rfl, createTemp_eq_error htemp ▸ .refl u⟩
    · obtain ⟨hg, hslash, p, hnew⟩ := createTemp_eq_ok (on_io_eq_ok htemp)
      have hx := hg.sound hsound
      rw [on_io] at h
      cases hrun : on x (persist temp path c) with
      | mk r' w' =>
        rw [hrun] at h
        cases h
        rcases persist_cases hnew.find hslash hrun with ⟨rfl, q, hq, hdir, hw⟩ | ⟨e, rfl, hw⟩
        · have hi := (find_eq_ok_iff.mp hnew.find).2
          have hsame := hnew.sameItems hg hx c
          have hfilled := (frame_filled hx hi c).1.sound
          have hnotdir : ((x.put p (.file c)).erase p).item? q ≠ some .dir := fun hd =>
            hdir (hg.kept q _ (hsame.kept q ▸ hd))
          obtain ⟨hreplaced, hself⟩ := replaced_put hfilled hnotdir c
          have hlinks {s : Place} : ¬ LinkTo x p s := not_linkTo fun t ht => by
            rw [hi] at ht
            cases ht
          have hlocate := (hnew.replaced hg).locate hq (fun s hs => absurd hs hlinks)
            fun _ => hlinks
          rw [← hw] at hreplaced hself
          exact .inr ⟨rfl, (preserves_moved hx hi hdir (hx.locate_above hq) hw).1.sound, q, hlocate,
            hsame.replaced hreplaced, hself⟩
        · exact .inl ⟨_, rfl, hw ▸ hnew.sameItems hg hx c⟩

end Disk

end Patchwork
