import Patchwork.Proofs.Archive.Commit

/-!
# What a closed handle leaves

However a handle was got, and whatever was called on it, closing it leaves an archive that lists the old
members and then those that the successful calls have added.
-/
namespace Patchwork

open Handle Volume
open Zip (Listed Member)

/-- A handle that was got at a path, for the archive that is there or for a new one. -/
inductive Obtained (v₀ : Volume) (path : Text) (h : Handle) (v : Volume) : Prop
  | opened (create : Bool) (hrun : Disk.on v₀ (openAt path create) = (.ok h, v))
  | created (hrun : Disk.on v₀ (Handle.create path) = (.ok h, v))

/-- The members of the archive that was opened at a path; a new one has none. -/
def Original (v₀ v : Volume) (path : Text) (h : Handle) (old : List Member) : Prop :=
  (Disk.on v₀ (Handle.create path) = (.ok h, v) ∧ old = []) ∨
    ∃ bytes a, v.read path = .ok bytes ∧ Zip.read bytes = .ok a ∧ a.members = old

/-- What the list of an archive tells of a member, and what is stored for it. -/
def Zip.Member.record (m : Member) : Text × Nat × Nat × Bytes := (m.name, m.method, m.crc, m.stored)

/-- The file at a place is an archive that lists some members. -/
def Lists (w : Volume) (p : Place) (ms : List Member) : Prop :=
  ∃ bytes a, w.item? p = some (.file bytes) ∧ Zip.read bytes = .ok a ∧
    a.members.map Member.record = ms.map Member.record

/-- An archive of some members is read as it was written. -/
def Zip.ReadsBack (ms : List Member) : Prop := Zip.read (Zip.write ms) = .ok ⟨[], ms⟩

/-- The path named a link and led through it, and leads nowhere now that a file stands there. -/
def LostWithLink (v w : Volume) (path : Text) (p : Place) : Prop :=
  v.locate .entry path = .ok p ∧ v.PassesLink p ∧
    Disk.on w (openAt path false) = (.error (.notFound path), w)

variable {v₀ v v' w : Volume} {path : Text} {h h' : Handle} {old : List Member}
  {added : List Addition}

theorem record_copied (ms : List Member) :
    (ms.map Member.copied).map Member.record = ms.map Member.record := by
  rw [List.map_map]
  rfl

/-- What the start of a handle leaves: nothing is added yet. -/
structure Started (v₀ v : Volume) (path : Text) (h : Handle) (old : List Member) : Prop where
  sound : v.Sound
  named : h.path = path
  pending : Handle.Pending h h v old []
  present : h.present = old.map (Entry.normalize ·.name)
  origin : (Disk.on v₀ (Handle.create path) = (.ok h, v) ∧ old = [] ∧ h.stage ≠ none) ∨
    ∃ p bytes a, v.find .item path = .ok (p, .file bytes) ∧ Zip.read bytes = .ok a ∧ a.members = old

theorem started_openAt {create : Bool} (hv : v₀.Sound)
    (hrun : Disk.on v₀ (openAt path create) = (.ok h, v)) : ∃ old, Started v₀ v path h old := by
  obtain ⟨hsound, hload⟩ := openAt_eq_ok hv hrun
  obtain ⟨p, bytes, es, hf, hes, rfl⟩ := load_eq_ok hload
  obtain ⟨a, hread, hms⟩ := Zip.read_of_index hes
  have hbytes : (ofEntries path (some (v.opened p)) es).bytes v = bytes :=
    contentOf_opened (find_eq_ok_iff.mp hf).2
  have hpresent : es.map (·.path) = a.members.map (Entry.normalize ·.name) := by
    have hheaders := congrArg (List.map Zip.Header.path) (Zip.mapM_header hms)
    rw [List.map_map, List.map_map] at hheaders
    exact hheaders.symm
  refine ⟨a.members, hsound, rfl, ⟨rfl, rfl, rfl, mapM_memberOf ?_, ?_, Or.inl ⟨rfl, rfl, rfl⟩⟩,
    hpresent, Or.inr ⟨p, bytes, a, hf, hread, rfl⟩⟩
  · rw [hbytes]
    exact hms
  · rw [List.map_nil, List.append_nil]

theorem started_create (hv : v₀.Sound) (hrun : Disk.on v₀ (Handle.create path) = (.ok h, v)) :
    Started v₀ v path h [] := by
  obtain ⟨hg, temp, p, rfl, hfresh⟩ := create_eq_ok hrun
  refine ⟨hg.sound hv, rfl, ⟨rfl, rfl, rfl, rfl, rfl, Or.inr ⟨temp, rfl, hfresh.stands⟩⟩, rfl,
    Or.inl ⟨hrun, rfl, nofun⟩⟩

theorem Obtained.started (hv : v₀.Sound) (hget : Obtained v₀ path h v) :
    ∃ old, Started v₀ v path h old := by
  cases hget with
  | opened create hrun => exact started_openAt hv hrun
  | created hrun => exact ⟨[], started_create hv hrun⟩

theorem Started.original (hs : Started v₀ v path h old) : Original v₀ v path h old := by
  rcases hs.origin with ⟨hcreate, hold, _⟩ | ⟨p, bytes, a, hf, hread, hold⟩
  · exact Or.inl ⟨hcreate, hold⟩
  · refine Or.inr ⟨bytes, a, ?_, hread, hold⟩
    rw [Volume.read, openFile, hf]
    rfl

/-- Closing puts what is staged where the path names it, and the path leads there or is lost with a link. -/
theorem close_puts {s : Stage} (hv : v.Sound) (hstage : h.stage = some s) (hstands : Stands v s.temp)
    (hclose : Disk.on v h.close = (.ok (), w)) :
    ∃ p, w.item? p = some (.file (Zip.write s.members)) ∧
      (w.find .item h.path = .ok (p, .file (Zip.write s.members)) ∨ LostWithLink v w h.path p) := by
  unfold Handle.close at hclose
  rw [hstage] at hclose
  obtain ⟨t, c, htemp⟩ := hstands.file
  obtain ⟨p, hl, hm⟩ := persist_moves htemp hstands.noSlash (Disk.on_io_eq_ok hclose)
  refine ⟨p, hm.placed, ?_⟩
  rcases hm.find hv hl with hf | ⟨hnone, hpass⟩
  · exact Or.inl hf
  · refine Or.inr ⟨hl, hpass, ?_⟩
    have hfile : w.isFile h.path = false := by
      unfold isFile
      split
      · next hf => exact absurd hf (hnone _ _)
      · rfl
    rw [on_openAt_false, hfile]
    rfl

/-- Only a new archive can be lost: the path of an archive that was opened leads to it. -/
theorem Started.created_of_lost {p : Place} (hs : Started v₀ v path h old) (hg : Grows v v')
    (hlost : LostWithLink v' w path p) : Disk.on v₀ (Handle.create path) = (.ok h, v) := by
  obtain ⟨hl, hpass, -⟩ := hlost
  rcases hs.origin with ⟨hcreate, _⟩ | ⟨r, bytes, a, hf, _⟩
  · exact hcreate
  · exact absurd hpass (not_passesLink (hg.sound hs.sound) (hg.find hf) hl)

end Patchwork
