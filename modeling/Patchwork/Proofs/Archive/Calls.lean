import Patchwork.Proofs.Archive.Pending
import Patchwork.Proofs.Zip.Listing

/-!
# Calls on a handle

Each call that succeeds adds members to what is pending: the directories on the way that are not there
yet, the outermost first, and then its own.  A call that fails because something is there, or is not
there, adds nothing.
-/
namespace Patchwork

open Handle Volume
open Zip (Member)

/-- What can be asked of a handle that writes. -/
inductive Call
  | write (path : Text) (data : Bytes)
  | createDirAll (path : Text)
  | copyFrom (source : Handle) (path : Text)

/-- The failure is that something is there already, or that it is not there. -/
def Fault.tellsPresence : Fault → Bool
  | .notFound _ => true
  | .io cause => cause.kind = .notFound || cause.kind = .alreadyExists
  | _ => false

/-- Success, or a failure that tells what is there. -/
def Expected (r : Except Fault Unit) : Prop := ∀ f, r = .error f → f.tellsPresence

/-- Directories of which some may be present, as entries to be added. -/
def missingDirs (present dirs : List Text) : List Addition :=
  (dirs.filter (· ∉ present)).map fun dir => (dir, Member.directory (Entry.relative dir ++ ['/']))

/-- The directories on the way to a path that are not present. -/
def missingParents (present : List Text) (path : Text) : List Addition :=
  match Entry.parent? path with
  | some dir => missingDirs present (Entry.chain dir)
  | none => []

namespace Call

def run : Call → Staging Unit
  | write path data => Staging.write path data
  | createDirAll path => Staging.createDirAll path
  | copyFrom source path => Staging.copyFrom source path

/-- The members that a call adds to an archive with some paths present, if it succeeds. -/
def additions (v : Volume) (present : List Text) : Call → List Addition
  | write path data =>
    let path := Entry.normalize path
    missingParents present path ++ [(path, Member.file (Entry.relative path) data)]
  | createDirAll path => missingDirs present (Entry.chain path)
  | copyFrom source path =>
    let path := Entry.normalize path
    match source.entry? path with
    | none => []
    | some e =>
      if e.kind = .dir ∧ path ∈ present then []
      else match source.memberOf v e with
        | .ok m => missingParents present path ++ [(path, m.copied)]
        | .error _ => []

/-- What the call is to copy cannot be read. -/
def Unreadable (v : Volume) (f : Fault) : Call → Prop
  | copyFrom source path =>
    ∃ e, source.entry? (Entry.normalize path) = some e ∧ source.memberOf v e = .error f
  | _ => False

end Call

/-- Calls one after the other, whatever becomes of each. -/
def runCalls (v : Volume) (h : Handle) : List Call → List (Except Fault Unit) × Handle × Volume
  | [] => ([], h, v)
  | c :: cs =>
    match Staging.on v h c.run with
    | ((r, h'), w) =>
      let rest := runCalls w h' cs
      (r :: rest.1, rest.2)

/-- What the calls that succeed add, one after the other. -/
def contributed (v : Volume) (present : List Text) :
    List (Call × Except Fault Unit) → List Addition
  | [] => []
  | (c, .ok ()) :: rest =>
    let adds := c.additions v present
    adds ++ contributed v (present ++ adds.map (·.1)) rest
  | (_, .error _) :: rest => contributed v present rest

namespace Staging

variable {α β : Type} {v w : Volume} {h h' : Handle}

theorem on_bind_eq_ok {s : Staging α} {f : α → Staging β} {b : β}
    (hrun : on v h (s >>= f) = ((.ok b, h'), w)) :
    ∃ a g u, on v h s = ((.ok a, g), u) ∧ on u g (f a) = ((.ok b, h'), w) := by
  rw [on_bind] at hrun
  split at hrun
  · next a g u hs => exact ⟨a, g, u, hs, hrun⟩
  · cases hrun

theorem on_bind_eq_error {s : Staging α} {f : α → Staging β} {e : Fault}
    (hrun : on v h (s >>= f) = ((.error e, h'), w)) :
    on v h s = ((.error e, h'), w) ∨
      ∃ a g u, on v h s = ((.ok a, g), u) ∧ on u g (f a) = ((.error e, h'), w) := by
  rw [on_bind] at hrun
  split at hrun
  · next a g u hs => exact Or.inr ⟨a, g, u, hs, hrun⟩
  · next hs =>
    cases hrun
    exact Or.inl hs

theorem on_change_eq_ok {f : Handle → Disk Fault Handle}
    (hrun : on v h (change f) = ((.ok (), h'), w)) : Disk.on v (f h) = (.ok h', w) := by
  simp only [on, change] at hrun
  split at hrun
  · next hf =>
    cases hrun
    exact hf
  · cases hrun

theorem on_change_eq_error {f : Handle → Disk Fault Handle} {e : Fault}
    (hrun : on v h (change f) = ((.error e, h'), w)) : Disk.on v (f h) = (.error e, w) ∧ h' = h := by
  simp only [on, change] at hrun
  split at hrun
  · cases hrun
  · next hf =>
    cases hrun
    exact ⟨hf, rfl⟩

theorem on_requireAbsent (path : Text) : on v h (requireAbsent path) =
    ((if path ∈ h.present then .error (.io (.entryExists h.path path)) else .ok (), h), v) := rfl

end Staging

namespace Handle

variable {h h' start : Handle} {v v₀ w : Volume} {old : List Member} {added adds : List Addition}
  {f : Fault}

theorem Pending.change_ok (hp : Pending start h v old added)
    (hrun : Staging.on v h (Staging.change (·.add adds)) = ((.ok (), h'), w)) :
    Grows v w ∧ Pending start h' w old (added ++ adds) :=
  hp.add (Staging.on_change_eq_ok hrun)

theorem Pending.change_error (hp : Pending start h v old added)
    (hrun : Staging.on v h (Staging.change (·.add adds)) = ((.error f, h'), w)) :
    Grows v w ∧ Pending start h' w old added ∧ added = [] := by
  obtain ⟨hadd, rfl⟩ := Staging.on_change_eq_error hrun
  obtain ⟨hg, hadded⟩ := hp.add_error hadd
  exact ⟨hg, hp.grow hg, hadded⟩

/-- A member that is not there is added with the directories on the way to it, or nothing is. -/
theorem Pending.below_error {path : Text} {u : Volume} {g : Handle}
    (hp : Pending start h v old added)
    (hparents : Staging.on v h (Staging.createParents path) = ((.ok (), g), u))
    (hrun : Staging.on u g (Staging.change (·.add adds)) = ((.error f, h'), w)) :
    Grows v w ∧ Pending start h' w old added := by
  obtain ⟨hgu, hpu⟩ := hp.change_ok hparents
  obtain ⟨hgw, hpw, hnil⟩ := hpu.change_error hrun
  obtain ⟨hadded, hdirs⟩ := List.append_eq_nil_iff.mp hnil
  rw [hdirs, List.append_nil] at hpw
  exact ⟨hgu.trans hgw, hpw⟩

/-- What is absent is added together with the directories on the way to it. -/
theorem Pending.below_ok {path : Text} {u : Volume} {g : Handle} (hp : Pending start h v old added)
    (hparents : Staging.on v h (Staging.createParents path) = ((.ok (), g), u))
    (hrun : Staging.on u g (Staging.change (·.add adds)) = ((.ok (), h'), w)) :
    Grows v w ∧ Pending start h' w old (added ++ (missingParents h.present path ++ adds)) := by
  obtain ⟨hgu, hpu⟩ := hp.change_ok hparents
  obtain ⟨hgw, hpw⟩ := hpu.change_ok hrun
  rw [List.append_assoc] at hpw
  exact ⟨hgu.trans hgw, hpw⟩

theorem requireAbsent_ok {path : Text} {u : Volume} {g : Handle}
    (hrun : Staging.on v h (Staging.requireAbsent path) = ((.ok (), g), u)) : g = h ∧ u = v := by
  rw [Staging.on_requireAbsent] at hrun
  split at hrun
  · cases hrun
  · cases hrun
    exact ⟨rfl, rfl⟩

theorem requireAbsent_error {path : Text} {u : Volume} {g : Handle}
    (hrun : Staging.on v h (Staging.requireAbsent path) = ((.error f, g), u)) : g = h ∧ u = v := by
  rw [Staging.on_requireAbsent] at hrun
  split at hrun
  · cases hrun
    exact ⟨rfl, rfl⟩
  · cases hrun

theorem Pending.write_ok {path : Text} {data : Bytes} (hp : Pending start h v old added)
    (hrun : Staging.on v h (Staging.write path data) = ((.ok (), h'), w)) :
    Grows v w ∧ Pending start h' w old (added ++ (Call.write path data).additions v₀ h.present) := by
  obtain ⟨⟨⟩, g, u, habsent, hrest⟩ := Staging.on_bind_eq_ok hrun
  obtain ⟨⟨⟩, g', u', hparents, hadd⟩ := Staging.on_bind_eq_ok hrest
  obtain ⟨rfl, rfl⟩ := requireAbsent_ok habsent
  exact hp.below_ok hparents hadd

theorem Pending.write_error {path : Text} {data : Bytes} (hp : Pending start h v old added)
    (hrun : Staging.on v h (Staging.write path data) = ((.error f, h'), w)) :
    Grows v w ∧ Pending start h' w old added := by
  rcases Staging.on_bind_eq_error hrun with habsent | ⟨⟨⟩, g, u, habsent, hrest⟩
  · obtain ⟨rfl, rfl⟩ := requireAbsent_error habsent
    exact ⟨.refl _, hp⟩
  · obtain ⟨rfl, rfl⟩ := requireAbsent_ok habsent
    rcases Staging.on_bind_eq_error hrest with hparents | ⟨⟨⟩, g', u', hparents, hadd⟩
    · obtain ⟨hg, hpw, _⟩ := hp.change_error hparents
      exact ⟨hg, hpw⟩
    · exact hp.below_error hparents hadd

theorem memberOf_error {source : Handle} {e : Zip.Listed}
    (h : source.memberOf v e = .error f) : f.tellsPresence = false := by
  unfold memberOf at h
  cases hm : e.member (source.bytes v) with
  | ok m =>
    rw [hm] at h
    cases h
  | error failure =>
    rw [hm] at h
    cases h
    rcases Zip.member_error hm with rfl | rfl | rfl <;> rfl

theorem Pending.copyFrom_ok {source : Handle} {path : Text} (hp : Pending start h v old added)
    (hg : Grows v₀ v)
    (hrun : Staging.on v h (Staging.copyFrom source path) = ((.ok (), h'), w)) :
    Grows v w ∧
      Pending start h' w old (added ++ (Call.copyFrom source path).additions v₀ h.present) := by
  unfold Staging.copyFrom at hrun
  unfold Call.additions
  cases he : source.entry? (Entry.normalize path) with
  | none =>
    simp only [he] at hrun
    cases hrun
  | some e =>
    simp only [he] at hrun ⊢
    obtain ⟨k, g, u, hget, hrest⟩ := Staging.on_bind_eq_ok hrun
    cases hget
    split at hrest
    · next hthere =>
      cases hrest
      rw [if_pos hthere, List.append_nil]
      exact ⟨.refl v, hp⟩
    · next hthere =>
      rw [if_neg hthere]
      obtain ⟨⟨⟩, g, u, habsent, hrest⟩ := Staging.on_bind_eq_ok hrest
      obtain ⟨⟨⟩, g', u', hparents, hrest⟩ := Staging.on_bind_eq_ok hrest
      obtain ⟨m, g'', u'', hread, hadd⟩ := Staging.on_bind_eq_ok hrest
      obtain ⟨rfl, rfl⟩ := requireAbsent_ok habsent
      rw [Staging.on_ask] at hread
      obtain ⟨hgu, _⟩ := hp.change_ok hparents
      cases hm : source.memberOf v₀ e with
      | error f =>
        rw [memberOf_grow (hg.trans hgu), hm] at hread
        cases hread
      | ok m' =>
        rw [memberOf_grow (hg.trans hgu), hm] at hread
        cases hread
        exact hp.below_ok hparents hadd

theorem not_unreadable {c : Call} (hf : f.tellsPresence) : ¬ c.Unreadable v f := by
  cases c with
  | write | createDirAll => exact nofun
  | copyFrom source path =>
    rintro ⟨e, -, hm⟩
    rw [memberOf_error hm] at hf
    cases hf

theorem Pending.copyFrom_error {source : Handle} {path : Text} (hp : Pending start h v old added)
    (hrun : Staging.on v h (Staging.copyFrom source path) = ((.error f, h'), w))
    (hf : ¬ (Call.copyFrom source path).Unreadable v f) : Grows v w ∧ Pending start h' w old added := by
  unfold Staging.copyFrom at hrun
  cases he : source.entry? (Entry.normalize path) with
  | none =>
    simp only [he] at hrun
    cases hrun
    exact ⟨.refl v, hp⟩
  | some e =>
    simp only [he] at hrun
    rcases Staging.on_bind_eq_error hrun with hget | ⟨k, g, u, hget, hrest⟩
    · cases hget
    · cases hget
      split at hrest
      · cases hrest
      · rcases Staging.on_bind_eq_error hrest with habsent | ⟨⟨⟩, g, u, habsent, hbelow⟩
        · obtain ⟨rfl, rfl⟩ := requireAbsent_error habsent
          exact ⟨.refl _, hp⟩
        · obtain ⟨rfl, rfl⟩ := requireAbsent_ok habsent
          rcases Staging.on_bind_eq_error hbelow with hparents | ⟨⟨⟩, g, u, hparents, hcopy⟩
          · obtain ⟨hg, hpw, _⟩ := hp.change_error hparents
            exact ⟨hg, hpw⟩
          · rcases Staging.on_bind_eq_error hcopy with hread | ⟨m, g', u', hread, hadd⟩
            · obtain ⟨hg, -⟩ := hp.change_ok hparents
              rw [Staging.on_ask, memberOf_grow hg] at hread
              exact absurd ⟨e, he, congrArg (·.1.1) hread⟩ hf
            · simp only [Staging.on_ask, Prod.mk.injEq] at hread
              obtain ⟨⟨_, rfl⟩, rfl⟩ := hread
              exact hp.below_error hparents hadd

theorem Pending.call_ok {c : Call} (hp : Pending start h v old added) (hg : Grows v₀ v)
    (hrun : Staging.on v h c.run = ((.ok (), h'), w)) :
    Grows v w ∧ Pending start h' w old (added ++ c.additions v₀ h.present) := by
  cases c with
  | write path data => exact hp.write_ok hrun
  | createDirAll path => exact hp.change_ok hrun
  | copyFrom source path => exact hp.copyFrom_ok hg hrun

theorem Pending.call_error {c : Call} (hp : Pending start h v old added)
    (hrun : Staging.on v h c.run = ((.error f, h'), w)) (hf : ¬ c.Unreadable v f) :
    Grows v w ∧ Pending start h' w old added := by
  cases c with
  | write path data => exact hp.write_error hrun
  | createDirAll path =>
    obtain ⟨hg, hpw, _⟩ := hp.change_error hrun
    exact ⟨hg, hpw⟩
  | copyFrom source path => exact hp.copyFrom_error hrun hf

/-- However many calls are made, what is pending is what the successful ones have contributed. -/
theorem Pending.calls {calls : List Call} {outcomes : List (Except Fault Unit)}
    (hp : Pending start h v old added) (hg : Grows v₀ v)
    (hrun : runCalls v h calls = (outcomes, h', w)) (hout : ∀ r ∈ outcomes, Expected r) :
    Grows v w ∧
      Pending start h' w old (added ++ contributed v₀ h.present (calls.zip outcomes)) := by
  induction calls generalizing v h added outcomes with
  | nil =>
    cases hrun
    rw [List.zip_nil_left, contributed, List.append_nil]
    exact ⟨.refl _, hp⟩
  | cons c cs ih =>
    rw [runCalls] at hrun
    split at hrun
    next r g u hc =>
    simp only [Prod.mk.injEq] at hrun
    obtain ⟨rfl, hruns⟩ := hrun
    rw [List.zip_cons_cons]
    have hrest (s : Except Fault Unit) (hs : s ∈ (runCalls u g cs).1) : Expected s :=
      hout s (List.mem_cons_of_mem _ hs)
    cases r with
    | ok =>
      obtain ⟨hgu, hpu⟩ := hp.call_ok hg hc
      obtain ⟨hgw, hpw⟩ := ih hpu (hg.trans hgu) (Prod.ext rfl hruns) hrest
      have hpresent : g.present = h.present ++ (c.additions v₀ h.present).map (·.1) := by
        rw [hpu.present, hp.present, List.map_append, List.append_assoc]
      rw [contributed, ← hpresent, ← List.append_assoc]
      exact ⟨hgu.trans hgw, hpw⟩
    | error f =>
      obtain ⟨hgu, hpu⟩ := hp.call_error hc (not_unreadable (hout _ List.mem_cons_self f rfl))
      obtain ⟨hgw, hpw⟩ := ih hpu (hg.trans hgu) (Prod.ext rfl hruns) hrest
      have hpresent : g.present = h.present := by rw [hpu.present, hp.present]
      rw [contributed, ← hpresent]
      exact ⟨hgu.trans hgw, hpw⟩

end Handle

end Patchwork
