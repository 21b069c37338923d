import Patchwork.Archive.Copy
import Patchwork.Proofs.Archive.Nesting

/-!
# Copies of a selection

Copying the regular files that are accepted into a new archive records the directories that lead to them, each
once and before the first file that is below it.  The order of the entries depends on the files alone, so that
a copy of a copy lists what one copy does of the files that both accept.
-/
namespace Patchwork

open Handle
open Zip (Member)

/-! ### Paths without empty parts -/

namespace Entry

variable {path d dir last : Text}

/-- No part of a path is empty. -/
def Segmented (path : Text) : Prop := ¬ ['/', '/'] <:+: path

instance (path : Text) : Decidable (Segmented path) := inferInstanceAs (Decidable (¬ _))

theorem Segmented.part (h : Segmented path) (hd : d <:+: path) : Segmented d :=
  fun hslashes => h (hslashes.trans hd)

theorem mem_ancestors_iff : d ∈ ancestors path ↔ d ≠ [] ∧ d ++ ['/'] <+: path := by
  rw [mem_ancestors]
  constructor
  · rintro ⟨i, hpos, hi, rfl⟩
    obtain ⟨hlt, hslash⟩ := List.getElem?_eq_some_iff.mp hi
    refine ⟨fun hnil => ?_, ?_⟩
    · have hlen := congrArg List.length hnil
      rw [List.length_take, List.length_nil] at hlen
      omega
    · rw [← hslash, List.take_concat_get' path i hlt]
      exact List.take_prefix _ path
  · rintro ⟨hne, rest, rfl⟩
    exact ⟨d.length, List.length_pos_iff.mpr hne, by simp, by simp⟩

/-- A directory on the way to a path has nothing but slashes behind the path that it is listed under. -/
theorem exists_normalize_append (hd : d ∈ ancestors (normalize path)) :
    ∃ slashes, d = normalize d ++ slashes ∧ ∀ c ∈ slashes, c = '/' := by
  obtain ⟨hne, hpre⟩ := mem_ancestors_iff.mp hd
  obtain ⟨c, u, rfl⟩ := List.exists_cons_of_ne_nil hne
  obtain ⟨rfl, rest, hrest⟩ := List.cons_prefix_cons.mp hpre
  have hfirst : u.dropWhile (· = '/') = u := by
    refine dropWhile_slash fun hhead => ?_
    obtain ⟨x, rfl⟩ := List.head?_eq_some_iff.mp hhead
    exact head?_trimmed path (by rw [← hrest]; rfl)
  obtain ⟨slashes, hu, hslash⟩ := Text.exists_dropEnd (· = '/') u
  refine ⟨slashes, ?_, fun c hc => of_decide_eq_true (hslash c hc)⟩
  rw [normalize_cons_slash, normalize, Text.dropBoth, hfirst, List.cons_append, ← hu]

/-- A directory on the way to a path without empty parts has no slashes to take away. -/
theorem Segmented.normalize_eq (hs : Segmented (normalize path)) (hd : d ∈ ancestors (normalize path)) :
    normalize d = d := by
  obtain ⟨slashes, hd', hslash⟩ := exists_normalize_append hd
  have hparts : Segmented (d ++ ['/']) := hs.part (mem_ancestors_iff.mp hd).2.isInfix
  cases slashes with
  | nil => exact (hd'.trans (List.append_nil _)).symm
  | cons c slashes =>
    have hdouble : ∃ more, c :: slashes ++ ['/'] = '/' :: '/' :: more := by
      cases slashes with
      | nil => exact ⟨[], by rw [hslash c List.mem_cons_self]; rfl⟩
      | cons c' slashes =>
        exact ⟨slashes ++ ['/'], by rw [hslash c (by simp), hslash c' (by simp)]; rfl⟩
    obtain ⟨more, hmore⟩ := hdouble
    refine absurd ?_ hparts
    rw [hd', List.append_assoc, hmore]
    exact ⟨normalize d, more, by simp⟩

theorem ancestors_append (hlast : '/' ∉ last) :
    ancestors (dir ++ '/' :: last) = ancestors dir ++ if dir = [] then [] else [dir] := by
  unfold ancestors
  rw [List.length_append, List.length_cons, Nat.add_comm last.length, ← Nat.add_assoc, List.range_add,
    List.range_succ, List.filterMap_append, List.filterMap_append, List.filterMap_map]
  have hbehind : (List.range last.length).filterMap ((fun i =>
      if 0 < i ∧ (dir ++ '/' :: last)[i]? = some '/' then some ((dir ++ '/' :: last).take i) else none) ∘
        (dir.length + 1 + ·)) = [] := by
    refine List.filterMap_eq_nil_iff.mpr fun i _ => if_neg fun hi => ?_
    have hslash := hi.2
    dsimp only at hslash
    rw [List.getElem?_append_right (by omega), show dir.length + 1 + i - dir.length = i + 1 by omega,
      List.getElem?_cons_succ] at hslash
    exact hlast (List.mem_of_getElem? hslash)
  rw [hbehind, List.append_nil]
  congr 1
  · refine List.filterMap_congr fun i hi => ?_
    have hlt := List.mem_range.mp hi
    rw [List.getElem?_append_left hlt, List.take_append_of_le_length hlt.le]
  · by_cases hdir : dir = []
    · simp [hdir]
    · simp [hdir, List.length_pos_iff.mpr hdir]

/-- A directory on the way to a path is the one above its last part, or lies on the way to that one. -/
theorem eq_or_mem_ancestors (hlast : '/' ∉ last) (hd : d ∈ ancestors (dir ++ '/' :: last)) :
    d = dir ∨ d ∈ ancestors dir := by
  rw [ancestors_append hlast, List.mem_append] at hd
  refine hd.symm.imp_left fun hd => ?_
  split at hd
  · cases hd
  · exact List.mem_singleton.mp hd

theorem root_not_mem_ancestors (path : Text) : ['/'] ∉ ancestors (normalize path) := fun hd => by
  obtain ⟨-, rest, hrest⟩ := mem_ancestors_iff.mp hd
  exact head?_trimmed path (by rw [← (List.cons.inj hrest).2]; rfl)

/-- A directory that is listed under its own name is made on the way to a path just if it is on the way. -/
theorem mem_dirsAbove_of_normalize (hp : normalize d = d) :
    d ∈ dirsAbove (normalize path) ↔ d ∈ ancestors (normalize path) := by
  refine ⟨mem_ancestors_of_dirsAbove, fun hd => ?_⟩
  have hroot : d ≠ ['/'] := fun h => root_not_mem_ancestors path (h ▸ hd)
  have hslashes {dir : Text} (hdir : dir ∈ ancestors (normalize path)) := exists_normalize_append hdir
  generalize normalize path = path at hd hslashes
  obtain ⟨last, hlast, rfl | ⟨dir, rfl⟩⟩ := Path.exists_last_part path
  · obtain ⟨-, rest, rfl⟩ := mem_ancestors_iff.mp hd
    exact absurd (List.mem_append_left rest List.mem_concat_self) hlast
  have hbelow := eq_or_mem_ancestors hlast hd
  have hdir : dir ≠ [] := by
    rintro rfl
    rcases hbelow with rfl | hd
    · exact (mem_ancestors_iff.mp hd).1 rfl
    · cases hd
  have hchain : d = normalize dir ∨ d ∈ ancestors (normalize dir) := by
    rcases hbelow with rfl | hd
    · exact .inl hp.symm
    obtain ⟨slashes, hdir', hslash⟩ := hslashes (mem_ancestors_iff.mpr ⟨hdir, last, by simp⟩)
    obtain ⟨hne, rest, hrest⟩ := mem_ancestors_iff.mp hd
    rw [hdir', List.append_assoc, List.singleton_append] at hrest
    rcases List.append_eq_append_iff.mp hrest with ⟨t, ht, hrest⟩ | ⟨t, ht, hrest⟩
    · cases t with
      | nil => exact .inl (ht.trans (List.append_nil d)).symm
      | cons c t =>
        obtain ⟨rfl, -⟩ := List.cons.inj hrest
        exact .inr (mem_ancestors_iff.mpr ⟨hne, t, by rw [ht]; simp⟩)
    · have ht' : ∀ c ∈ t, decide (c = '/') = true := fun c hc =>
        decide_eq_true (hslash c (hrest ▸ List.mem_append_left _ hc))
      rw [← hp, ht, normalize, Text.dropBoth_append ht', ← normalize, normalize_normalize]
      exact .inl rfl
  unfold dirsAbove parent? chain
  rw [Text.cutLast?_append hlast]
  dsimp only
  rw [if_neg hdir]
  dsimp only
  rw [List.mem_append]
  rcases hchain with rfl | hd
  · exact .inr (by rw [if_neg hroot]; exact List.mem_singleton_self _)
  · exact .inl hd

/-- The directories that are made on the way to a path without empty parts are those that are on the way. -/
theorem dirsAbove_eq (hs : Segmented (normalize path)) : dirsAbove (normalize path) = ancestors (normalize path) := by
  have hname {dir : Text} (hdir : dir ∈ ancestors (normalize path)) : normalize dir = dir := hs.normalize_eq hdir
  have hroot := root_not_mem_ancestors path
  generalize normalize path = path at hname hroot
  unfold dirsAbove parent?
  obtain ⟨last, hlast, rfl | ⟨dir, rfl⟩⟩ := Path.exists_last_part path
  · rw [Text.cutLast?_of_not_mem hlast]
    refine (List.eq_nil_iff_forall_not_mem.mpr fun d hd => ?_).symm
    obtain ⟨-, rest, rfl⟩ := mem_ancestors_iff.mp hd
    exact absurd (List.mem_append_left rest List.mem_concat_self) hlast
  · rw [Text.cutLast?_append hlast, ancestors_append hlast] at *
    dsimp only
    by_cases hdir : dir = []
    · rw [if_pos hdir, if_pos hdir, hdir]
      rfl
    · rw [if_neg hdir] at hname hroot ⊢
      rw [if_neg hdir]
      dsimp only
      unfold chain
      have hself : dir ∈ ancestors dir ++ [dir] := List.mem_append_right _ (List.mem_singleton_self dir)
      have hne : dir ≠ ['/'] := by
        rintro rfl
        exact hroot hself
      rw [hname hself]
      dsimp only
      rw [if_neg hne]

theorem mem_dirsAbove_iff (hs : Segmented (normalize path)) :
    d ∈ dirsAbove (normalize path) ↔ d ∈ ancestors (normalize path) := by rw [dirsAbove_eq hs]

end Entry

/-! ### What a copy is to be -/

/-- The entries have different paths without empty parts, and nothing lies below a regular file. -/
structure Orderly (ms : List Member) : Prop where
  nodup : (ms.map (·.path)).Nodup
  segmented : ∀ m ∈ ms, Entry.Segmented m.path
  above : ∀ m ∈ ms, m.kind = .file → ∀ n ∈ ms, m.path ∉ Entry.ancestors n.path

instance (ms : List Member) : Decidable (Orderly ms) :=
  decidable_of_iff ((ms.map (·.path)).Nodup ∧ (∀ m ∈ ms, Entry.Segmented m.path) ∧
    ∀ m ∈ ms, m.kind = .file → ∀ n ∈ ms, m.path ∉ Entry.ancestors n.path)
    ⟨fun h => ⟨h.1, h.2.1, h.2.2⟩, fun h => ⟨h.nodup, h.segmented, h.above⟩⟩

/-- The regular files of an archive that are accepted. -/
def accepted (accepts : Text → Bool) (ms : List Member) : List Member :=
  ms.filter fun m => m.kind = .file && accepts m.path

theorem accepted_eq (accepts : Text → Bool) (ms : List Member) :
    accepted accepts ms = (ms.filter (·.kind = .file)).filter fun m => accepts m.path := by
  rw [accepted, List.filter_filter]
  exact List.filter_congr fun m _ => Bool.and_comm _ _

/-- A copy has the regular files of an archive that are accepted, in their order and as they are stored, and
records each directory that leads to one of them, and no other one. -/
structure Selects (accepts : Text → Bool) (ms copy : List Member) : Prop where
  files : (copy.filter (·.kind = .file)).map Member.record = (accepted accepts ms).map Member.record
  nodup : (copy.map (·.path)).Nodup
  dirs : ∀ d, (∃ m ∈ copy, m.kind = .dir ∧ m.path = d) ↔ ∃ m ∈ accepted accepts ms, d ∈ Entry.ancestors m.path

/-- What copying some members adds to an archive with some paths present: for each of them the directories on
the way to it that are not there yet, and then the member. -/
def copies (present : List Text) : List Member → List Addition
  | [] => []
  | m :: ms =>
    let adds := missingParents present m.path ++ [(m.path, m.copied)]
    adds ++ copies (present ++ adds.map (·.1)) ms

/-- The members of a new archive that the accepted files are copied into. -/
def copyOf (accepts : Text → Bool) (ms : List Member) : List Member :=
  (copies [] (accepted accepts ms)).map (·.2)

variable {accepts other : Text → Bool} {m : Member} {ms : List Member} {present : List Text} {a : Addition}

theorem mem_accepted : m ∈ accepted accepts ms ↔ m ∈ ms ∧ m.kind = .file ∧ accepts m.path = true := by
  rw [accepted, List.mem_filter, Bool.and_eq_true, decide_eq_true_eq]

theorem Zip.Member.path_copied (m : Member) : m.copied.path = m.path := rfl

theorem Zip.Member.record_copied (m : Member) : m.copied.record = m.record := rfl

theorem normalize_path (m : Member) : Entry.normalize m.path = m.path := Entry.normalize_normalize m.name

theorem Orderly.filter (ho : Orderly ms) (p : Member → Bool) : Orderly (ms.filter p) where
  nodup := ho.nodup.sublist (List.filter_sublist.map _)
  segmented m hm := ho.segmented m (List.mem_of_mem_filter hm)
  above m hm hfile n hn := ho.above m (List.mem_of_mem_filter hm) hfile n (List.mem_of_mem_filter hn)

theorem Orderly.accepted (ho : Orderly ms) (accepts : Text → Bool) : Orderly (accepted accepts ms) := ho.filter _

theorem Orderly.tail (ho : Orderly (m :: ms)) : Orderly ms :=
  ⟨(List.nodup_cons.mp ho.nodup).2, fun n hn => ho.segmented n (List.mem_cons_of_mem m hn),
    fun n hn hfile k hk => ho.above n (List.mem_cons_of_mem m hn) hfile k (List.mem_cons_of_mem m hk)⟩

theorem Orderly.not_dirsAbove {n : Member} (ho : Orderly ms) (hm : m ∈ ms) (hn : n ∈ ms) (hfile : n.kind = .file) :
    n.path ∉ Entry.dirsAbove m.path := fun hdir => by
  rw [← normalize_path m] at hdir
  refine ho.above n hn hfile m hm ?_
  rw [← normalize_path m]
  exact Entry.mem_ancestors_of_dirsAbove hdir

theorem kind_accepted (hm : m ∈ accepted accepts ms) : m.kind = .file := (mem_accepted.mp hm).2.1

theorem filter_accepted (accepts : Text → Bool) (ms : List Member) :
    (accepted accepts ms).filter (·.kind = .file) = accepted accepts ms :=
  List.filter_eq_self.mpr fun _ hm => decide_eq_true (kind_accepted hm)

/-! ### What is added -/

/-- What copying a member adds to an archive with some paths present: the directories on the way to it that are not
there yet, and then the member, unless it is a directory that is there. -/
def arrival (present : List Text) (m : Member) : List Addition :=
  if m.kind = .dir ∧ m.path ∈ present then [] else missingParents present m.path ++ [(m.path, m.copied)]

/-- What copying some members one after the other adds. -/
def arrivals (present : List Text) : List Member → List Addition
  | [] => []
  | m :: ms => arrival present m ++ arrivals (present ++ (arrival present m).map (·.1)) ms

theorem arrival_file (hfile : m.kind = .file) (present : List Text) :
    arrival present m = missingParents present m.path ++ [(m.path, m.copied)] :=
  if_neg fun hdir => by cases hfile.symm.trans hdir.1

theorem arrivals_files (hfiles : ∀ m ∈ ms, m.kind = .file) (present : List Text) :
    arrivals present ms = copies present ms := by
  induction ms generalizing present with
  | nil => rfl
  | cons m ms ih =>
    rw [arrivals, copies, arrival_file (hfiles m List.mem_cons_self),
      ih fun n hn => hfiles n (List.mem_cons_of_mem m hn)]

theorem copyOf_eq (accepts : Text → Bool) (ms : List Member) :
    copyOf accepts ms = (arrivals [] (accepted accepts ms)).map (·.2) := by
  rw [copyOf, arrivals_files fun _ => kind_accepted]

theorem mem_missingParents (hs : Entry.Segmented m.path) : a ∈ missingParents present m.path ↔
    ∃ d ∈ Entry.ancestors m.path, d ∉ present ∧ a = (d, Member.directory (Entry.relative d ++ ['/'])) := by
  rw [missingParents_eq, missingDirs, List.mem_map]
  refine exists_congr fun d => ?_
  rw [List.mem_filter, decide_eq_true_eq, ← normalize_path m,
    Entry.mem_dirsAbove_iff (by rw [normalize_path]; exact hs), and_assoc, eq_comm]

/-- What is added is a directory on the way to one of the members, or one of them. -/
theorem mem_arrivals (hs : ∀ m ∈ ms, Entry.Segmented m.path) (ha : a ∈ arrivals present ms) :
    (∃ m ∈ ms, a = (m.path, m.copied)) ∨ ∃ m ∈ ms, ∃ d ∈ Entry.ancestors m.path,
      a = (d, Member.directory (Entry.relative d ++ ['/'])) := by
  induction ms generalizing present with
  | nil => cases ha
  | cons m ms ih =>
    rcases List.mem_append.mp ha with ha | ha
    · unfold arrival at ha
      split at ha
      · cases ha
      · rcases List.mem_append.mp ha with ha | ha
        · obtain ⟨d, hd, -, rfl⟩ := (mem_missingParents (hs m List.mem_cons_self)).mp ha
          exact .inr ⟨m, List.mem_cons_self, d, hd, rfl⟩
        · exact .inl ⟨m, List.mem_cons_self, List.mem_singleton.mp ha⟩
    · exact (ih (fun n hn => hs n (List.mem_cons_of_mem m hn)) ha).imp
        (fun ⟨n, hn, h⟩ => ⟨n, List.mem_cons_of_mem m hn, h⟩)
        fun ⟨n, hn, h⟩ => ⟨n, List.mem_cons_of_mem m hn, h⟩

/-- Each member is added under its own path. -/
theorem path_of_mem_arrivals (hs : ∀ m ∈ ms, Entry.Segmented m.path) (ha : a ∈ arrivals present ms) :
    a.2.path = a.1 := by
  rcases mem_arrivals hs ha with ⟨m, -, rfl⟩ | ⟨m, hm, d, hd, rfl⟩
  · rfl
  · rw [← normalize_path m] at hd
    rw [path_directory]
    exact Entry.Segmented.normalize_eq (by rw [normalize_path]; exact hs m hm) hd

theorem paths_arrivals (hs : ∀ m ∈ ms, Entry.Segmented m.path) (present : List Text) :
    ((arrivals present ms).map (·.2)).map (·.path) = (arrivals present ms).map (·.1) := by
  rw [List.map_map]
  exact List.map_congr_left fun a ha => path_of_mem_arrivals hs ha

theorem paths_added (present : List Text) (m : Member) :
    (missingParents present m.path ++ [(m.path, m.copied)]).map (·.1) =
      (Entry.dirsAbove m.path).filter (· ∉ present) ++ [m.path] := by
  rw [List.map_append, missingParents_eq, missingDirs, List.map_map]
  exact congrArg (· ++ [m.path]) (List.map_id _)

theorem mem_paths_arrival {p : Text} (hp : p ∈ (arrival present m).map (·.1)) :
    p ∈ Entry.dirsAbove m.path ∨ p = m.path := by
  unfold arrival at hp
  split at hp
  · cases hp
  · rw [paths_added, List.mem_append, List.mem_singleton] at hp
    exact hp.imp_left fun hd => (List.mem_filter.mp hd).1

/-- The paths of the files to come stay free. -/
theorem Orderly.free (ho : Orderly (m :: ms)) (hfree : ∀ n ∈ m :: ms, n.kind = .file → n.path ∉ present) :
    ∀ n ∈ ms, n.kind = .file → n.path ∉ present ++ (arrival present m).map (·.1) := by
  intro n hn hfile hin
  have hmore := List.mem_cons_of_mem m hn
  rcases List.mem_append.mp hin with hin | hin
  · exact hfree n hmore hfile hin
  · rcases mem_paths_arrival hin with habove | hsame
    · exact ho.not_dirsAbove List.mem_cons_self hmore hfile habove
    · exact (List.nodup_cons.mp ho.nodup).1 (List.mem_map.mpr ⟨n, hn, hsame⟩)

theorem nodup_arrival (hfree : m.kind = .file → m.path ∉ present) :
    ((arrival present m).map (·.1)).Nodup ∧ ∀ p ∈ (arrival present m).map (·.1), p ∉ present := by
  unfold arrival
  split
  · exact ⟨List.nodup_nil, nofun⟩
  · next hgoes =>
    have habsent : m.path ∉ present := by
      cases hkind : m.kind with
      | file => exact hfree hkind
      | dir => exact fun hin => hgoes ⟨hkind, hin⟩
    rw [paths_added]
    constructor
    · refine List.Nodup.append ((Entry.nodup_dirsAbove _).filter _) (List.nodup_singleton _) fun p hp hq => ?_
      rw [List.mem_singleton.mp hq, List.mem_filter, ← normalize_path m] at hp
      exact Nat.lt_irrefl _ (Entry.length_lt_of_mem_ancestors (Entry.mem_ancestors_of_dirsAbove hp.1))
    · intro p hp hin
      rcases List.mem_append.mp hp with hp | hp
      · exact of_decide_eq_true (List.mem_filter.mp hp).2 hin
      · rw [List.mem_singleton.mp hp] at hin
        exact habsent hin

/-- No path is added twice, and none that is present. -/
theorem nodup_arrivals (ho : Orderly ms) (hfree : ∀ m ∈ ms, m.kind = .file → m.path ∉ present) :
    ((arrivals present ms).map (·.1)).Nodup ∧ ∀ p ∈ (arrivals present ms).map (·.1), p ∉ present := by
  induction ms generalizing present with
  | nil => exact ⟨List.nodup_nil, nofun⟩
  | cons m ms ih =>
    obtain ⟨hfirst, hnew⟩ := nodup_arrival (hfree m List.mem_cons_self)
    obtain ⟨hrest, hapart⟩ := ih ho.tail (ho.free hfree)
    rw [arrivals, List.map_append]
    refine ⟨List.Nodup.append hfirst hrest fun p hp hq => hapart p hq (List.mem_append_right _ hp), fun p hp => ?_⟩
    rcases List.mem_append.mp hp with hp | hp
    · exact hnew p hp
    · exact fun hin => hapart p hp (List.mem_append_left _ hin)

/-- The path of each member is there or is added. -/
theorem mem_paths_arrivals (hm : m ∈ ms) : m.path ∈ present ++ (arrivals present ms).map (·.1) := by
  induction ms generalizing present with
  | nil => cases hm
  | cons n ms ih =>
    rw [arrivals, List.map_append, ← List.append_assoc]
    rcases List.mem_cons.mp hm with rfl | hm
    · refine List.mem_append_left _ ?_
      unfold arrival
      split
      · next hthere => exact List.mem_append_left _ hthere.2
      · rw [paths_added]
        exact List.mem_append_right _ (List.mem_append_right _ (List.mem_singleton_self _))
    · exact ih hm

/-- Of what is added, the regular files are those of the members. -/
theorem files_arrivals (hs : ∀ m ∈ ms, Entry.Segmented m.path) (present : List Text) :
    ((arrivals present ms).map (·.2)).filter (·.kind = .file) = (ms.filter (·.kind = .file)).map Member.copied := by
  induction ms generalizing present with
  | nil => rfl
  | cons m ms ih =>
    have hdirs : ((missingParents present m.path).map (·.2)).filter (·.kind = .file) = [] := by
      refine List.filter_eq_nil_iff.mpr fun n hn hfile => ?_
      obtain ⟨a, ha, rfl⟩ := List.mem_map.mp hn
      obtain ⟨d, -, -, rfl⟩ := (mem_missingParents (hs m List.mem_cons_self)).mp ha
      have hkind := of_decide_eq_true hfile
      rw [kind_directory] at hkind
      cases hkind
    have hself : [m.copied].filter (·.kind = .file) = ([m].filter (·.kind = .file)).map Member.copied := by
      rw [← List.map_singleton, List.filter_map]
      rfl
    have hfirst : ((arrival present m).map (·.2)).filter (·.kind = .file) =
        ([m].filter (·.kind = .file)).map Member.copied := by
      unfold arrival
      split
      · next hthere =>
        have hkind : m.kind ≠ .file := by
          rw [hthere.1]
          exact nofun
        rw [List.filter_cons_of_neg (by simpa using hkind)]
        rfl
      · rw [List.map_append, List.filter_append, hdirs]
        exact hself
    rw [arrivals, List.map_append, List.filter_append, hfirst, ih fun n hn => hs n (List.mem_cons_of_mem m hn),
      ← List.map_append, ← List.filter_append, List.singleton_append]

/-! ### Directories come first -/

/-- Each path comes behind the directories on the way to it. -/
def Grounded (present : List Text) : List Text → Prop
  | [] => True
  | p :: ps => (∀ d ∈ Entry.ancestors p, d ∈ present) ∧ Grounded (present ++ [p]) ps

theorem grounded_append {ps qs : List Text} :
    Grounded present (ps ++ qs) ↔ Grounded present ps ∧ Grounded (present ++ ps) qs := by
  induction ps generalizing present with
  | nil => rw [List.append_nil]; exact (and_iff_right trivial).symm
  | cons p ps ih => rw [List.cons_append, Grounded, Grounded, ih, List.append_assoc, List.singleton_append, and_assoc]

/-- By induction on the length of the path, since the last directory on the way has all others on its own way. -/
theorem grounded_ancestors (path : Text) : Grounded [] (Entry.ancestors path) := by
  induction hn : path.length using Nat.strong_induction_on generalizing path with
  | _ n ih =>
    obtain ⟨last, hlast, rfl | ⟨dir, rfl⟩⟩ := Path.exists_last_part path
    · have hnone : Entry.ancestors path = [] := by
        refine List.eq_nil_iff_forall_not_mem.mpr fun d hd => ?_
        obtain ⟨-, rest, rfl⟩ := Entry.mem_ancestors_iff.mp hd
        exact absurd (List.mem_append_left rest List.mem_concat_self) hlast
      rw [hnone]
      trivial
    · rw [Entry.ancestors_append hlast, grounded_append, List.nil_append]
      refine ⟨ih dir.length (by rw [← hn, List.length_append, List.length_cons]; omega) dir rfl, ?_⟩
      split
      · trivial
      · exact ⟨fun d hd => hd, trivial⟩

/-- Paths that are present need not be added. -/
theorem Grounded.filter {there present ps : List Text} (hg : Grounded there ps) (hthere : ∀ p ∈ there, p ∈ present) :
    Grounded present (ps.filter (· ∉ present)) := by
  suffices h : ∀ more, (∀ p ∈ there, p ∈ present ++ more) →
      Grounded (present ++ more) (ps.filter (· ∉ present)) by
    simpa using h [] (by simpa using hthere)
  clear hthere
  induction ps generalizing there with
  | nil => exact fun _ _ => trivial
  | cons p ps ih =>
    intro more hthere
    rw [List.filter_cons]
    split
    · refine ⟨fun d hd => hthere d (hg.1 d hd), ?_⟩
      rw [List.append_assoc]
      refine ih hg.2 (more ++ [p]) fun q hq => ?_
      rw [← List.append_assoc]
      exact (List.mem_append.mp hq).elim (fun hq => List.mem_append_left _ (hthere q hq))
        fun hq => List.mem_append_right _ hq
    · next hin =>
      refine ih hg.2 more fun q hq => (List.mem_append.mp hq).elim (hthere q) fun hq => ?_
      rw [List.mem_singleton.mp hq]
      exact List.mem_append_left _ (by simpa using hin)

theorem grounded_arrivals (hs : ∀ m ∈ ms, Entry.Segmented m.path) (present : List Text) :
    Grounded present ((arrivals present ms).map (·.1)) := by
  induction ms generalizing present with
  | nil => trivial
  | cons m ms ih =>
    rw [arrivals, List.map_append, grounded_append]
    refine ⟨?_, ih (fun n hn => hs n (List.mem_cons_of_mem m hn)) _⟩
    unfold arrival
    split
    · trivial
    · have hdirs : Entry.dirsAbove m.path = Entry.ancestors m.path := by
        rw [← normalize_path m]
        exact Entry.dirsAbove_eq (by rw [normalize_path]; exact hs m List.mem_cons_self)
      rw [paths_added, hdirs, grounded_append]
      refine ⟨(grounded_ancestors m.path).filter nofun, fun d hd => ?_, trivial⟩
      by_cases hin : d ∈ present
      · exact List.mem_append_left _ hin
      · exact List.mem_append_right _ (List.mem_filter.mpr ⟨hd, decide_eq_true hin⟩)

/-- A new archive has the regular files of some members, in their order and as they are stored, and records the
directories among them and those on the way to one of them, each once and before everything that is below it. -/
structure Gathers (ms out : List Member) : Prop where
  files : (out.filter (·.kind = .file)).map Member.record = (ms.filter (·.kind = .file)).map Member.record
  nodup : (out.map (·.path)).Nodup
  dirs : ∀ d, (∃ m ∈ out, m.kind = .dir ∧ m.path = d) ↔
    ∃ m ∈ ms, d ∈ Entry.ancestors m.path ∨ m.kind = .dir ∧ m.path = d
  below : ∀ before m after, out = before ++ m :: after →
    ∀ d ∈ Entry.ancestors m.path, ∃ n ∈ before, n.kind = .dir ∧ n.path = d

/-- What is added is a directory just if it is one of the members or lies on the way to one. -/
theorem Orderly.added_dir (ho : Orderly ms) (ha : a ∈ arrivals present ms) :
    a.2.kind = .dir ↔ ∃ m ∈ ms, a.1 ∈ Entry.ancestors m.path ∨ m.kind = .dir ∧ m.path = a.1 := by
  rcases mem_arrivals ho.segmented ha with ⟨n, hn, rfl⟩ | ⟨n, hn, d, hd, rfl⟩
  · refine ⟨fun hkind => ⟨n, hn, .inr ⟨hkind, rfl⟩⟩, ?_⟩
    rintro ⟨m, hm, habove | ⟨hkind, hsame⟩⟩
    · cases hkind : n.kind with
      | dir => exact hkind
      | file => exact absurd habove (ho.above n hn hkind m hm)
    · rwa [List.inj_on_of_nodup_map ho.nodup hm hn hsame] at hkind
  · exact iff_of_true (kind_directory d) ⟨n, hn, .inl hd⟩

/-- In front of what is added are the directories on the way to it. -/
theorem dirs_before {before after : List Addition} (hs : ∀ m ∈ ms, Entry.Segmented m.path)
    (hsplit : arrivals [] ms = before ++ a :: after) : ∀ d ∈ Entry.ancestors a.1, ∃ b ∈ before, b.1 = d := by
  have hg := grounded_arrivals hs []
  rw [hsplit, List.map_append, grounded_append, List.nil_append] at hg
  exact fun d hd => List.mem_map.mp (hg.2.1 d hd)

theorem mem_arrivals_iff (ho : Orderly ms) {d : Text} :
    (∃ a ∈ arrivals [] ms, a.1 = d) ↔ ∃ m ∈ ms, d ∈ Entry.ancestors m.path ∨ m.path = d := by
  constructor
  · rintro ⟨a, ha, rfl⟩
    rcases mem_arrivals ho.segmented ha with ⟨m, hm, rfl⟩ | ⟨m, hm, d, hd, rfl⟩
    · exact ⟨m, hm, .inr rfl⟩
    · exact ⟨m, hm, .inl hd⟩
  · rintro ⟨m, hm, hd⟩
    have hadded : m.path ∈ [] ++ (arrivals [] ms).map (·.1) := mem_paths_arrivals hm
    obtain ⟨a, ha, hpath⟩ := List.mem_map.mp hadded
    rcases hd with hd | rfl
    · obtain ⟨before, after, hsplit⟩ := List.append_of_mem ha
      obtain ⟨b, hb, rfl⟩ := dirs_before ho.segmented hsplit d (hpath ▸ hd)
      exact ⟨b, hsplit ▸ List.mem_append_left _ hb, rfl⟩
    · exact ⟨a, ha, hpath⟩

theorem dirs_arrivals (ho : Orderly ms) (d : Text) :
    (∃ m ∈ (arrivals [] ms).map (·.2), m.kind = .dir ∧ m.path = d) ↔
      ∃ m ∈ ms, d ∈ Entry.ancestors m.path ∨ m.kind = .dir ∧ m.path = d := by
  constructor
  · rintro ⟨m, hm, hkind, rfl⟩
    obtain ⟨a, ha, rfl⟩ := List.mem_map.mp hm
    rw [path_of_mem_arrivals ho.segmented ha]
    exact (ho.added_dir ha).mp hkind
  · rintro ⟨m, hm, hd⟩
    obtain ⟨a, ha, rfl⟩ := (mem_arrivals_iff ho).mpr ⟨m, hm, hd.imp_right (·.2)⟩
    exact ⟨a.2, List.mem_map_of_mem ha, (ho.added_dir ha).mpr ⟨m, hm, hd⟩, path_of_mem_arrivals ho.segmented ha⟩

theorem below_arrivals (ho : Orderly ms) {before after : List Member}
    (hsplit : (arrivals [] ms).map (·.2) = before ++ m :: after) :
    ∀ d ∈ Entry.ancestors m.path, ∃ n ∈ before, n.kind = .dir ∧ n.path = d := by
  obtain ⟨front, rest, hadds, rfl, hrest⟩ := List.map_eq_append_iff.mp hsplit
  obtain ⟨a, back, rfl, rfl, -⟩ := List.map_eq_cons_iff.mp hrest
  have ha : a ∈ arrivals [] ms := hadds ▸ List.mem_append_right _ List.mem_cons_self
  intro d hd
  rw [path_of_mem_arrivals ho.segmented ha] at hd
  obtain ⟨b, hb, rfl⟩ := dirs_before ho.segmented hadds d hd
  have hb' : b ∈ arrivals [] ms := hadds ▸ List.mem_append_left _ hb
  refine ⟨b.2, List.mem_map_of_mem hb, (ho.added_dir hb').mpr ?_, path_of_mem_arrivals ho.segmented hb'⟩
  rcases mem_arrivals ho.segmented ha with ⟨n, hn, rfl⟩ | ⟨n, hn, e, he, rfl⟩
  · exact ⟨n, hn, .inl hd⟩
  · exact ⟨n, hn, .inl (Entry.mem_ancestors_of_prefix hd (Entry.prefix_of_mem_ancestors he))⟩

theorem gathers_arrivals (ho : Orderly ms) : Gathers ms ((arrivals [] ms).map (·.2)) where
  files := by rw [files_arrivals ho.segmented, record_copied]
  nodup := by
    rw [paths_arrivals ho.segmented]
    exact (nodup_arrivals ho fun _ _ _ => List.not_mem_nil).1
  dirs := dirs_arrivals ho
  below _ _ _ hsplit := below_arrivals ho hsplit

/-- What is gathered can be copied again. -/
theorem orderly_arrivals (ho : Orderly ms) : Orderly ((arrivals [] ms).map (·.2)) := by
  have hgathers := gathers_arrivals ho
  refine ⟨hgathers.nodup, fun m hm => ?_, fun m hm hfile n hn hin => ?_⟩
  · obtain ⟨a, ha, rfl⟩ := List.mem_map.mp hm
    rw [path_of_mem_arrivals ho.segmented ha]
    rcases mem_arrivals ho.segmented ha with ⟨n, hn, rfl⟩ | ⟨n, hn, d, hd, rfl⟩
    · exact ho.segmented n hn
    · exact (ho.segmented n hn).part (Entry.prefix_of_mem_ancestors hd).isInfix
  · obtain ⟨before, after, hsplit⟩ := List.append_of_mem hn
    obtain ⟨k, hk, hdir, hsame⟩ := hgathers.below before n after hsplit m.path hin
    have hk' : k ∈ (arrivals [] ms).map (·.2) := hsplit ▸ List.mem_append_left _ hk
    rw [List.inj_on_of_nodup_map hgathers.nodup hk' hm hsame, hfile] at hdir
    cases hdir

/-! ### Copies of copies -/

/-- What is added is the same for members that were copied before. -/
theorem record_copies (present : List Text) (ms : List Member) :
    (copies present (ms.map Member.copied)).map (fun a => (a.1, a.2.record)) =
      (copies present ms).map fun a => (a.1, a.2.record) := by
  induction ms generalizing present with
  | nil => rfl
  | cons m ms ih =>
    simp only [List.map_cons, copies, Zip.Member.path_copied, Zip.Member.record_copied, List.map_append,
      List.map_nil, ih]

theorem record_copyOf_copied (ms : List Member) :
    ((copies [] (ms.map Member.copied)).map (·.2)).map Member.record =
      ((copies [] ms).map (·.2)).map Member.record := by
  have h := congrArg (List.map Prod.snd) (record_copies [] ms)
  rwa [List.map_map, List.map_map] at h ⊢

theorem accepted_and (accepts other : Text → Bool) (ms : List Member) :
    accepted (fun p => accepts p && other p) ms = (accepted accepts ms).filter fun m => other m.path := by
  rw [accepted, accepted, List.filter_filter]
  refine List.filter_congr fun m _ => ?_
  rw [← Bool.and_assoc, Bool.and_comm]

/-- The accepted files of a copy are those of the archive that both accept. -/
theorem accepted_copyOf (ho : Orderly ms) (accepts other : Text → Bool) : accepted other (copyOf accepts ms) =
    (accepted (fun p => accepts p && other p) ms).map Member.copied := by
  rw [accepted_eq, copyOf_eq, files_arrivals (ho.accepted accepts).segmented, filter_accepted, accepted_and,
    List.filter_map]
  rfl

/-- Copying with one filter after another lists what one copy does of the files that both accept. -/
theorem record_copyOf_copyOf (ho : Orderly ms) (accepts other : Text → Bool) :
    (copyOf other (copyOf accepts ms)).map Member.record =
      (copyOf (fun p => accepts p && other p) ms).map Member.record := by
  rw [copyOf, accepted_copyOf ho, record_copyOf_copied, copyOf]

/-- A copy can be copied again. -/
theorem orderly_copyOf (ho : Orderly ms) (accepts : Text → Bool) : Orderly (copyOf accepts ms) := by
  rw [copyOf_eq]
  exact orderly_arrivals (ho.accepted accepts)

theorem selects_copyOf (ho : Orderly ms) (accepts : Text → Bool) : Selects accepts ms (copyOf accepts ms) := by
  have hgathers := gathers_arrivals (ho.accepted accepts)
  rw [← copyOf_eq] at hgathers
  refine ⟨by rw [hgathers.files, filter_accepted], hgathers.nodup, fun d => (hgathers.dirs d).trans ?_⟩
  refine exists_congr fun m => and_congr_right fun hm => or_iff_left fun hdir => ?_
  cases hdir.1.symm.trans (kind_accepted hm)

end Patchwork
