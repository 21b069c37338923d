import Patchwork.Proofs.Archive.Calls

/-!
# What staging does beside an archive

Whatever is called on a handle, the volume only grows, and of the files only the temporary one of the handle
is new: it is made together with the first member that is added.
-/
namespace Patchwork

open Handle Volume
open Zip (Member)

/-- A program that only asks and adds members. -/
inductive Additive : {α : Type} → Staging α → Prop
  | ask {α : Type} (f : Handle → Volume → Except Fault α) : Additive (Staging.ask f)
  | add (adds : Handle → List Addition) : Additive (Staging.change fun h => h.add (adds h))
  | bind {α β : Type} {s : Staging α} {f : α → Staging β} (hs : Additive s)
      (hf : ∀ a, Additive (f a)) : Additive (s >>= f)

/-- The temporary file of a handle. -/
def Handle.temp? (h : Handle) : Option Text := h.stage.map (·.temp)

/-- The way of a handle and its volume while something is staged, or nothing. -/
structure Advance (v w : Volume) (h h' : Handle) : Prop where
  grows : Grows v w
  holds : ∀ old, h.Holds v old → h'.Holds w old
  present : h.present <+: h'.present
  temp : (h'.temp? = h.temp? ∧ ∀ r, w.file? r = v.file? r) ∨
    h.temp? = none ∧ h.present.length < h'.present.length ∧
      ∃ temp p, h'.temp? = some temp ∧ Fresh v w temp p

/-- A program advances every handle whose archive can be read, whether it succeeds or not. -/
def Advances {α : Type} (s : Staging α) : Prop :=
  ∀ v h old, h.Holds v old → Advance v (Staging.on v h s).2 h (Staging.on v h s).1.2

variable {u v w : Volume} {h h' h'' : Handle} {old : List Member} {adds : List Addition} {α β : Type}

theorem Advance.of_grow (hg : Grows v w) (hfiles : ∀ r, w.file? r = v.file? r) (h : Handle) :
    Advance v w h h :=
  ⟨hg, fun _ hh => hh.grow hg, List.prefix_refl _, .inl ⟨rfl, hfiles⟩⟩

theorem Advance.refl (v : Volume) (h : Handle) : Advance v v h h := .of_grow (.refl v) (fun _ => rfl) h

theorem Advance.trans (huv : Advance u v h h') (hvw : Advance v w h' h'') : Advance u w h h'' := by
  refine ⟨huv.grows.trans hvw.grows, fun old hh => hvw.holds old (huv.holds old hh),
    huv.present.trans hvw.present, ?_⟩
  rcases huv.temp with ⟨htemp, hfiles⟩ | ⟨hnone, hlen, temp, p, hsome, hfresh⟩
  · rcases hvw.temp with ⟨htemp', hfiles'⟩ | ⟨hnone, hlen, temp, p, hsome, hfresh⟩
    · exact .inl ⟨htemp'.trans htemp, fun r => (hfiles' r).trans (hfiles r)⟩
    · exact .inr ⟨htemp.symm.trans hnone, huv.present.length_le.trans_lt hlen, temp, p, hsome,
        hfresh.of_grow huv.grows hfiles⟩
  · rcases hvw.temp with ⟨htemp, hfiles⟩ | ⟨hnone', _⟩
    · exact .inr ⟨hnone, hlen.trans_le hvw.present.length_le, temp, p, htemp.trans hsome,
        hfresh.grow hvw.grows hfiles⟩
    · rw [hsome] at hnone'
      cases hnone'

/-- What is put behind the members of a handle with a temporary file is put there for good. -/
theorem Advance.put (ha : Advance v w h h') (adds : List Addition) (htemp : h'.temp? = h.temp?) :
    Advance v w h (h'.put adds) := by
  have hput : (h'.put adds).temp? = h'.temp? := by
    rw [temp?, Handle.put, Option.map_map]
    rfl
  refine ⟨ha.grows, ha.holds, ha.present.trans (List.prefix_append _ _), ?_⟩
  rcases ha.temp with ⟨_, hfiles⟩ | ⟨hnone, _, temp, p, hsome, _⟩
  · exact .inl ⟨hput.trans htemp, hfiles⟩
  · rw [htemp, hnone] at hsome
    cases hsome

theorem advance_add_ok (hh : h.Holds v old) (hrun : Disk.on v (h.add adds) = (.ok h', w)) :
    Advance v w h h' := by
  unfold Handle.add at hrun
  split at hrun
  · cases hrun
    exact .refl v h
  · next hadds =>
    obtain ⟨b, u, hbegin, hrun⟩ := Disk.on_bind_eq_ok hrun
    cases hrun
    cases hstage : h.stage with
    | some s =>
      rw [begin_of_stage hstage] at hbegin
      cases hbegin
      exact (Advance.refl v h).put adds rfl
    | none =>
      obtain ⟨hg, temp, p, rfl, hfresh⟩ := begin_eq_ok hh hstage hbegin
      have hlen : 0 < (adds.map (·.1)).length := by
        rw [List.length_map]
        exact List.length_pos_iff.mpr hadds
      refine ⟨hg, fun old hh => hh.grow hg, List.prefix_append _ _, .inr ⟨?_, ?_, temp, p, rfl, hfresh⟩⟩
      · rw [temp?, hstage, Option.map_none]
      · show h.present.length < (h.present ++ adds.map (·.1)).length
        rw [List.length_append]
        omega

theorem advance_add_error {f : Fault} (hh : h.Holds v old)
    (hrun : Disk.on v (h.add adds) = (.error f, w)) : Advance v w h h := by
  obtain ⟨hstage, hbegin⟩ := add_eq_error hrun
  obtain ⟨hg, hfiles⟩ := begin_eq_error hh hstage hbegin
  exact .of_grow hg hfiles h

theorem advances_add (adds : Handle → List Addition) :
    Advances (Staging.change fun h => h.add (adds h)) := by
  intro v h old hh
  cases hrun : Staging.on v h (Staging.change fun h => h.add (adds h)) with
  | mk r w =>
    obtain ⟨r, h'⟩ := r
    cases r with
    | ok => exact advance_add_ok hh (Staging.on_change_eq_ok hrun)
    | error f =>
      obtain ⟨hadd, rfl⟩ := Staging.on_change_eq_error hrun
      exact advance_add_error hh hadd

theorem Advances.bind {s : Staging α} {f : α → Staging β} (hs : Advances s) (hf : ∀ a, Advances (f a)) :
    Advances (s >>= f) := by
  intro v h old hh
  have hfirst := hs v h old hh
  rw [Staging.on_bind]
  split
  · next a g u hrun =>
    rw [hrun] at hfirst
    exact hfirst.trans (hf a u g old (hfirst.holds old hh))
  · next e g u hrun =>
    rw [hrun] at hfirst
    exact hfirst

theorem Additive.advances {s : Staging α} (hs : Additive s) : Advances s := by
  induction hs with
  | ask f => exact fun v h _ _ => .refl v h
  | add adds => exact advances_add adds
  | bind _ _ ihs ihf => exact ihs.bind ihf

theorem additive_pure (a : α) : Additive (pure a) := .ask fun _ _ => .ok a

theorem additive_throw (f : Fault) : Additive (throw f : Staging α) := .ask fun _ _ => .error f

theorem additive_get : Additive (getThe Handle : Staging Handle) := .ask fun h _ => .ok h

theorem additive_copyFrom (source : Handle) (path : Text) : Additive (Staging.copyFrom source path) := by
  unfold Staging.copyFrom
  dsimp only
  split
  · exact additive_throw _
  · refine additive_get.bind fun h => ?_
    split
    · exact additive_pure ()
    · exact (Additive.ask _).bind fun _ => (Additive.add _).bind fun _ =>
        (Additive.ask _).bind fun _ => .add _

theorem additive_run (c : Call) : Additive c.run := by
  cases c with
  | write path data => exact (Additive.ask _).bind fun _ => (Additive.add _).bind fun _ => .add _
  | createDirAll path => exact .add _
  | copyFrom source path => exact additive_copyFrom source path

theorem advances_run (c : Call) : Advances c.run := (additive_run c).advances

end Patchwork
