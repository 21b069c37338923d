import Patchwork.Proofs.Zip.Listing
import Patchwork.Proofs.Zip.Names

/-!
# Archives that are read as they were written

Numbers are found in their fields again, an entry of the directory and a local header tell what the member
told, and the end record leads to the directory.  An archive is therefore read back as it was written as long
as all numbers fit, the declared lengths are those of the data, and nothing in front of the end record looks
like the locator of a wider one.
-/
namespace Patchwork.Zip

open LittleEndian (bytes)
open Text.Utf8 (encode)

variable {m : Member} {ms : List Member} {fs : List (Nat × Nat)} {bs rest : Bytes} {n offset width : Nat}

/-! ### Fields -/

theorem fields_cons (width n : Nat) (fs : List (Nat × Nat)) :
    fields ((width, n) :: fs) = bytes width n ++ fields fs := List.flatMap_cons

theorem length_fields (fs : List (Nat × Nat)) : (fields fs).length = (fs.map (·.1)).sum := by
  induction fs with
  | nil => rfl
  | cons f fs ih => rw [fields_cons, List.length_append, ih, LittleEndian.length_bytes, List.map_cons, List.sum_cons]

theorem number_bytes (hn : n < 1 <<< (8 * width)) : number (bytes width n ++ bs) 0 width = n := by
  rw [number, List.drop_zero, List.take_left' (LittleEndian.length_bytes width n), LittleEndian.value_bytes hn]

/-- A number is found again behind the fields in front of it. -/
theorem number_field {widths : List Nat} (k : Nat) (hwidths : fs.map (·.1) = widths)
    (hk : fs[k]? = some (width, n)) (ho : (widths.take k).sum = offset) (hn : n < 1 <<< (8 * width)) :
    number (fields fs) offset width = n := by
  subst hwidths ho
  induction fs generalizing k with
  | nil => cases hk
  | cons f fs ih =>
    rw [fields_cons]
    cases k with
    | zero =>
      obtain rfl : f = (width, n) := Option.some.inj hk
      exact number_bytes hn
    | succ k =>
      have hskip (at? : Nat) :
          number (bytes f.1 f.2 ++ fields fs) (f.1 + at?) width = number (fields fs) at? width := by
        rw [number, number, ← List.drop_drop, List.drop_left' (LittleEndian.length_bytes f.1 f.2)]
      rw [List.map_cons, List.take_succ_cons, List.sum_cons, hskip]
      exact ih k hk

theorem split_eq (h : n ≤ bs.length) : split n bs = .ok (bs.take n, bs.drop n) := by
  unfold split
  dsimp only
  rw [if_neg (by rw [List.length_take]; omega)]

theorem split_append {taken : Bytes} (h : taken.length = n) (rest : Bytes) :
    split n (taken ++ rest) = .ok (taken, rest) := by
  rw [split_eq (by rw [List.length_append]; omega), List.take_left' h, List.drop_left' h]

theorem bytes_two {low high : Nat} (h : low < 256) : bytes 2 (high * 256 + low) = bytes 1 low ++ bytes 1 high := by
  have hlow : (high * 256 + low) % 256 = low % 256 := by omega
  have hhigh : (high * 256 + low) / 256 = high := by omega
  simp only [bytes, hlow, hhigh]
  rfl

/-! ### Members -/

/-- The numbers of a member fit into their fields, and its declared length is that of its data. -/
structure Fits (m : Member) : Prop where
  name : (encode m.name).length < 0x10000
  method : m.method < 0x10000
  plain : m.method ≠ methodAes
  crc : m.crc < 0x100000000
  size : m.size < 0x100000000
  packed : m.packedSize = m.stored.length
  stored : m.stored.length < 0x100000000
  date : m.stamp.date < 0x10000
  time : m.stamp.time < 0x10000
  system : m.system < 0x100
  attributes : m.attributes < 0x100000000
  encrypted : m.encrypted = false

theorem ofMode_lt {mode : Nat} (h : mode < 0x10000) : Member.ofMode mode < 0x100000000 := by
  rw [Member.ofMode, Nat.shiftLeft_eq]
  omega

theorem Fits.copied (hm : Fits m) : Fits m.copied where
  __ := hm
  system := (by decide : systemUnix < 0x100)
  attributes := ofMode_lt <| by
    cases m.mode? with
    | none => decide
    | some mode => exact Nat.lt_of_le_of_lt Nat.and_le_right (by decide)
  encrypted := rfl

theorem fits_directory {name : Text} (hname : (encode name).length < 0x10000) : Fits (.directory name) :=
  have hempty : Fits (.directory []) := by constructor <;> decide
  { hempty with name := hname }

/-- The fields of an entry of the directory. -/
def directoryFields (offset : Nat) (m : Member) : List (Nat × Nat) :=
  [(4, directorySignature), (1, 46), (1, m.system), (2, 20), (2, m.flags), (2, m.method), (2, m.stamp.time),
    (2, m.stamp.date), (4, m.crc), (4, m.packedSize), (4, m.size), (2, (encode m.name).length), (2, 0), (2, 0),
    (2, 0), (2, 0), (4, m.attributes), (4, offset)]

def directoryWidths : List Nat := [4, 1, 1, 2, 2, 2, 2, 2, 4, 4, 4, 2, 2, 2, 2, 2, 4, 4]

/-- The fields of a local header. -/
def localFields (m : Member) : List (Nat × Nat) :=
  (4, localSignature) :: m.shared ++ [(2, 0)]

theorem Fits.wideSizes (hm : Fits m) : m.wideSizes = [] := by
  have hsize := hm.size
  have hstored := hm.stored
  rw [← hm.packed] at hstored
  have hnone : [m.size, m.packedSize].filter (saturated < ·) = [] := by
    refine List.filter_eq_nil_iff.mpr fun n hn hwide => ?_
    have hlt : 0xffffffff < n := of_decide_eq_true hwide
    simp only [List.mem_cons, List.not_mem_nil, or_false] at hn
    omega
  rw [Member.wideSizes, hnone]
  rfl

theorem Fits.shared (hm : Fits m) : m.shared = [(2, 20), (2, m.flags), (2, m.method), (2, m.stamp.time),
    (2, m.stamp.date), (4, m.crc), (4, m.packedSize), (4, m.size), (2, (encode m.name).length)] := by
  have hsize := hm.size
  have hstored := hm.stored
  rw [← hm.packed] at hstored
  rw [Member.shared, Nat.min_eq_left (by unfold saturated; omega), Nat.min_eq_left (by unfold saturated; omega)]

theorem Fits.localRecord (hm : Fits m) : m.localRecord = fields (localFields m) ++ encode m.name ++ m.stored := by
  rw [Member.localRecord, hm.wideSizes, List.append_nil]
  rfl

theorem Fits.directoryRecord (hm : Fits m) (offset : Nat) :
    m.directoryRecord offset = fields (directoryFields offset m) ++ encode m.name := by
  have hfields : fields ([(4, directorySignature), (2, m.system * 256 + 46)] ++ m.shared ++
      [(2, 0), (2, 0), (2, 0), (2, 0), (4, m.attributes), (4, offset)]) = fields (directoryFields offset m) := by
    have hlow : 46 < 256 := by decide
    rw [hm.shared]
    simp only [directoryFields, List.cons_append, List.nil_append, fields_cons, bytes_two hlow, List.append_assoc]
  rw [Member.directoryRecord, hm.wideSizes, List.append_nil, ← hfields]
  rfl

theorem flags_lt (m : Member) : m.flags < 0x10000 := by
  unfold Member.flags
  split <;> decide

/-- The name is read back in the encoding that the flags tell. -/
theorem name_read (m : Member) :
    (if m.flags.testBit 11 then Text.Utf8.decodeLossy (encode m.name)
      else Text.CodePage.decode (encode m.name)) = m.name := by
  unfold Member.flags
  split
  · next hascii =>
    rw [if_neg (by decide)]
    exact Text.CodePage.decode_encode fun c hc => of_decide_eq_true (List.all_eq_true.mp hascii c hc)
  · rw [if_pos (by decide)]
    exact Text.Utf8.decodeLossy_encode m.name

theorem flags_even (m : Member) : m.flags.testBit 0 = false := by
  unfold Member.flags
  split <;> decide

/-- An entry of the directory is read as it was written. -/
theorem Fits.readEntry (hm : Fits m) (hoffset : offset < 0x100000000) (rest : Bytes) :
    readEntry 0 (m.directoryRecord offset ++ rest) = .ok (⟨m.toHeader, offset⟩, rest) := by
  have hwidths : (directoryFields offset m).map (·.1) = directoryWidths := rfl
  have hlength : (fields (directoryFields offset m)).length = 46 := by
    rw [length_fields, hwidths]
    decide
  generalize hh : fields (directoryFields offset m) = h at hlength
  have hnumber {at? width n : Nat} (k : Nat) (hk : (directoryFields offset m)[k]? = some (width, n))
      (ho : (directoryWidths.take k).sum = at?) (hn : n < 1 <<< (8 * width)) : number h at? width = n :=
    hh ▸ number_field k hwidths hk ho hn
  have hstored : m.packedSize < 0x100000000 := hm.packed ▸ hm.stored
  have hsystem : number h 5 1 = m.system := hnumber 2 rfl (by decide) hm.system
  have hflags : number h 8 2 = m.flags := hnumber 4 rfl (by decide) (flags_lt m)
  have hmethod : number h 10 2 = m.method := hnumber 5 rfl (by decide) hm.method
  have htime : number h 12 2 = m.stamp.time := hnumber 6 rfl (by decide) hm.time
  have hdate : number h 14 2 = m.stamp.date := hnumber 7 rfl (by decide) hm.date
  have hcrc : number h 16 4 = m.crc := hnumber 8 rfl (by decide) hm.crc
  have hpacked : number h 20 4 = m.packedSize := hnumber 9 rfl (by decide) hstored
  have hsize : number h 24 4 = m.size := hnumber 10 rfl (by decide) hm.size
  have hname : number h 28 2 = (encode m.name).length := hnumber 11 rfl (by decide) hm.name
  have hextra : number h 30 2 = 0 := hnumber 12 rfl (by decide) (by decide)
  have hcomment : number h 32 2 = 0 := hnumber 13 rfl (by decide) (by decide)
  have hattributes : number h 38 4 = m.attributes := hnumber 16 rfl (by decide) hm.attributes
  have hposition : number h 42 4 = offset := hnumber 17 rfl (by decide) hoffset
  have hsig : ∃ behind, split 4 (h ++ (encode m.name ++ rest)) = .ok (bytes 4 directorySignature, behind) := by
    rw [← hh, directoryFields, fields_cons, List.append_assoc]
    exact ⟨_, split_append (LittleEndian.length_bytes _ _) _⟩
  obtain ⟨behind, hsig⟩ := hsig
  have hzero (ys : Bytes) : split 0 ys = .ok ([], ys) := split_append List.length_nil ys
  have hread (x : Extra) : Extra.read x [] = .ok x := by
    rw [Extra.read, dif_pos (by decide)]
  have hsigned : ¬number (bytes 4 directorySignature) 0 4 ≠ directorySignature := by decide
  have hplain : ¬(m.method = methodAes ∧ (!false) = true) := fun haes => hm.plain haes.1
  have hnear : ¬UInt64.size ≤ offset + 0 := by
    unfold UInt64.size
    omega
  rw [hm.directoryRecord, hh, List.append_assoc]
  unfold Zip.readEntry
  simp only [hsig, split_append hlength, bind, Except.bind, if_neg hsigned, hname, split_append rfl, hextra, hzero,
    hcomment, hread, hsize, hpacked, hposition, hmethod, if_neg hplain, if_neg hnear]
  simp only [hsystem, hflags, htime, hdate, hcrc, hattributes, name_read, flags_even]
  rw [← hm.encrypted]
  rfl

/-- A member is found where its local header stands. -/
theorem Fits.member (hm : Fits m) (before behind : Bytes) (hbefore : before.length < 0x100000000) :
    Listed.member (before ++ (m.localRecord ++ behind)) ⟨m.toHeader, before.length⟩ = .ok m := by
  have hlength : (fields (localFields m)).length = 30 := by
    rw [length_fields, localFields, hm.shared]
    rfl
  generalize hh : fields (localFields m) = h at hlength
  have hwidths : (localFields m).map (·.1) = [4, 2, 2, 2, 2, 2, 4, 4, 4, 2, 2] := by
    rw [localFields, hm.shared]
    rfl
  have hname : number h 26 2 = (encode m.name).length := by
    rw [← hh]
    exact number_field 9 hwidths (by rw [localFields, hm.shared]; rfl) (by decide) hm.name
  have hextra : number h 28 2 = 0 := by
    rw [← hh]
    exact number_field 10 hwidths (by rw [localFields, hm.shared]; rfl) (by decide) (by decide)
  have hsig : ∃ tail,
      split 4 (h ++ (encode m.name ++ (m.stored ++ behind))) = .ok (bytes 4 localSignature, tail) := by
    rw [← hh, localFields, List.cons_append, fields_cons, List.append_assoc]
    exact ⟨_, split_append (LittleEndian.length_bytes _ _) _⟩
  obtain ⟨tail, hsig⟩ := hsig
  have hsigned : ¬number (bytes 4 localSignature) 0 4 ≠ localSignature := by decide
  have hnear : ¬1 <<< 63 ≤ before.length := by omega
  unfold Listed.member
  rw [if_neg hnear]
  dsimp only
  rw [List.drop_left, hm.localRecord, hh, List.append_assoc, List.append_assoc]
  simp only [hsig, split_append hlength, bind, Except.bind, if_neg hsigned, hname, hextra, Nat.add_zero,
    List.drop_left, hm.packed, List.take_left]
  rfl

/-! ### Directories -/

/-- What the directory says of members whose local headers follow one another from `offset` on. -/
def listed (offset : Nat) : List Member → List Listed
  | [] => []
  | m :: ms => ⟨m.toHeader, offset⟩ :: listed (offset + m.localRecord.length) ms

theorem readEntries_directory (hms : ∀ m ∈ ms, Fits m)
    (hoffset : offset + (ms.flatMap Member.localRecord).length < 0x100000000) (rest : Bytes) :
    readEntries 0 ms.length (directory offset ms ++ rest) = .ok (listed offset ms) := by
  induction ms generalizing offset with
  | nil => rfl
  | cons m ms ih =>
    obtain ⟨hm, hms⟩ := List.forall_mem_cons.mp hms
    rw [List.flatMap_cons, List.length_append, ← Nat.add_assoc] at hoffset
    rw [List.length_cons, readEntries, directory, List.append_assoc, hm.readEntry (by omega), listed]
    simp only [bind, Except.bind, ih hms hoffset]
    rfl

theorem members_listed (hms : ∀ m ∈ ms, Fits m) (before behind : Bytes)
    (hbefore : before.length + (ms.flatMap Member.localRecord).length < 0x100000000) :
    (listed before.length ms).mapM (·.member (before ++ (ms.flatMap Member.localRecord ++ behind))) = .ok ms := by
  induction ms generalizing before with
  | nil => rfl
  | cons m ms ih =>
    obtain ⟨hm, hms⟩ := List.forall_mem_cons.mp hms
    rw [List.flatMap_cons, List.length_append, ← Nat.add_assoc] at hbefore
    have hnext : before ++ (m.localRecord ++ (ms.flatMap Member.localRecord ++ behind)) =
        (before ++ m.localRecord) ++ (ms.flatMap Member.localRecord ++ behind) := (List.append_assoc ..).symm
    have hrest := ih hms (before ++ m.localRecord) (by rwa [List.length_append])
    rw [List.length_append, ← hnext] at hrest
    rw [List.flatMap_cons, List.append_assoc, listed, List.mapM_cons, hm.member _ _ (by omega)]
    simp only [bind, Except.bind, hrest]
    rfl

/-! ### End records -/

/-- Of the positions where an end record might stand, the last is taken. -/
theorem lastEnd_append (before rest : Bytes) (position : Nat) (best : Option Nat) :
    lastEnd (before.length + 1) position best (before ++ 0x50 :: 0x4b :: 5 :: 6 :: rest) =
      some (position + before.length) := by
  induction before generalizing position best with
  | nil =>
    rw [List.length_nil, List.nil_append, lastEnd, lastEnd.eq_def]
    rfl
  | cons b before ih =>
    rw [List.length_cons, List.cons_append, lastEnd, ih]
    congr 1
    omega

theorem endRecord_read {count size : Nat} (hcount : count < 0x10000) (hsize : size < 0x100000000)
    (hoffset : offset < 0x100000000) :
    EndRecord.read (endRecord count size offset) = .ok ⟨0, 0, count, count, size, offset, []⟩ := by
  generalize hfs : [(4, endSignature), (2, 0), (2, 0), (2, count), (2, count), (4, size), (4, offset), (2, 0)] = fs
  have hwidths : fs.map (·.1) = [4, 2, 2, 2, 2, 4, 4, 2] := hfs ▸ rfl
  have hlength : (fields fs).length = EndRecord.length := by
    rw [length_fields, hwidths]
    rfl
  have hnumber {at? width n : Nat} (k : Nat) (hk : fs[k]? = some (width, n))
      (ho : ([4, 2, 2, 2, 2, 4, 4, 2].take k).sum = at?) (hn : n < 1 <<< (8 * width)) :
      number (fields fs) at? width = n := number_field k hwidths hk ho hn
  have hdisk : number (fields fs) 4 2 = 0 := hnumber 1 (hfs ▸ rfl) (by decide) (by decide)
  have hdirectoryDisk : number (fields fs) 6 2 = 0 := hnumber 2 (hfs ▸ rfl) (by decide) (by decide)
  have hhere : number (fields fs) 8 2 = count := hnumber 3 (hfs ▸ rfl) (by decide) hcount
  have hall : number (fields fs) 10 2 = count := hnumber 4 (hfs ▸ rfl) (by decide) hcount
  have hsize : number (fields fs) 12 4 = size := hnumber 5 (hfs ▸ rfl) (by decide) hsize
  have hoffset : number (fields fs) 16 4 = offset := hnumber 6 (hfs ▸ rfl) (by decide) hoffset
  have hcomment : number (fields fs) 20 2 = 0 := hnumber 7 (hfs ▸ rfl) (by decide) (by decide)
  have hsplit : split EndRecord.length (fields fs) = .ok (fields fs, []) := by
    rw [← split_append hlength [], List.append_nil]
  have hrest : split 0 [] = .ok ([], []) := split_append List.length_nil []
  rw [endRecord, hfs, EndRecord.read]
  simp only [hsplit, bind, Except.bind, hcomment, hrest, hdisk, hdirectoryDisk, hhere, hall, hsize, hoffset]
  rfl

theorem length_endRecord (count size offset : Nat) : (endRecord count size offset).length = EndRecord.length := by
  rw [endRecord, length_fields]
  rfl

/-- The end record is found behind whatever is in front of it. -/
theorem find_endRecord {count size : Nat} (hcount : count < 0x10000) (hsize : size < 0x100000000)
    (hoffset : offset < 0x100000000) (body : Bytes) :
    EndRecord.find (body ++ endRecord count size offset) =
      .ok (⟨0, 0, count, count, size, offset, []⟩, body.length) := by
  have htotal : (body ++ endRecord count size offset).length = body.length + EndRecord.length := by
    rw [List.length_append, length_endRecord]
  have hmark : ∃ tail, endRecord count size offset = 0x50 :: 0x4b :: 5 :: 6 :: tail := ⟨_, rfl⟩
  obtain ⟨tail, hmark⟩ := hmark
  unfold EndRecord.find
  dsimp only
  rw [htotal, if_neg (by omega)]
  generalize hfirst : body.length + EndRecord.length - (EndRecord.length + EndRecord.searchLimit) = first
  have hle : first ≤ body.length := by omega
  have hlast : lastEnd (body.length + EndRecord.length - EndRecord.length + 1 - first) first none
      ((body ++ endRecord count size offset).drop first) = some body.length := by
    rw [List.drop_append_of_le_length hle, hmark,
      show body.length + EndRecord.length - EndRecord.length + 1 - first = (body.drop first).length + 1 by
        rw [List.length_drop]
        omega,
      lastEnd_append, List.length_drop, Nat.add_sub_cancel' hle]
  rw [hlast]
  dsimp only
  rw [List.drop_left, endRecord_read hcount hsize hoffset]
  rfl

/-- Nothing stands where the locator of a wider end record would, so that the end record alone tells where
the directory is. -/
def Unmarked (body : Bytes) : Prop := number (body.drop (body.length - locatorLength)) 0 4 ≠ wideLocatorSignature

theorem findPlace_endRecord {r : EndRecord} (hcomment : r.comment = []) {body tail : Bytes}
    (hbody : Unmarked body) (htail : tail.length = EndRecord.length) (position : Nat) :
    findPlace (body ++ tail) r position = narrowPlace r position := by
  unfold findPlace
  dsimp only
  rw [hcomment, List.length_append, htail, List.length_nil, Nat.add_zero]
  split
  · rfl
  · next hroom =>
    have hlocator : ((body ++ tail).drop (body.length + EndRecord.length - (locatorLength + EndRecord.length))).take
        locatorLength = body.drop (body.length - locatorLength) := by
      rw [Nat.add_sub_add_right, List.drop_append_of_le_length (Nat.sub_le _ _), List.take_left']
      rw [List.length_drop]
      omega
    rw [hlocator, if_neg hbody]

/-- A directory that ends where the end record stands is where the record says. -/
theorem narrowPlace_adjacent {r : EndRecord} {position : Nat} (h : position = r.offset + r.size) :
    narrowPlace r position = .ok ⟨0, r.offset, r.countHere⟩ := by
  subst h
  rw [narrowPlace, if_neg (by omega), Nat.add_sub_cancel_right, Nat.sub_self]

/-! ### Archives -/

/-- The numbers that the end record tells fit into their fields, and nothing in front of it looks like a
locator. -/
structure EndFits (ms : List Member) : Prop where
  count : ms.length < 0x10000
  records : (ms.flatMap Member.localRecord).length < 0x100000000
  directory : (directory 0 ms).length < 0x100000000
  unmarked : Unmarked (ms.flatMap Member.localRecord ++ Zip.directory 0 ms)

/-- The directory of what was written says where each member is. -/
theorem directory_read (hms : ∀ m ∈ ms, Fits m) (h : EndFits ms) :
    Directory.read (write ms) = .ok ⟨[], listed 0 ms⟩ := by
  have hrecords := h.records
  have hentries := readEntries_directory hms (by rwa [Nat.zero_add])
    (endRecord ms.length (directory 0 ms).length (ms.flatMap Member.localRecord).length)
  have hfind := find_endRecord h.count h.directory h.records (ms.flatMap Member.localRecord ++ directory 0 ms)
  have hplace (r : EndRecord) (hcomment : r.comment = []) :=
    findPlace_endRecord hcomment h.unmarked
      (length_endRecord ms.length (directory 0 ms).length (ms.flatMap Member.localRecord).length)
      (ms.flatMap Member.localRecord ++ directory 0 ms).length
  rw [write]
  generalize endRecord ms.length (directory 0 ms).length (ms.flatMap Member.localRecord).length = tail at *
  generalize ms.flatMap Member.localRecord = records at *
  generalize directory 0 ms = dir at *
  have hnear : ¬1 <<< 63 ≤ records.length := by omega
  unfold Directory.read
  simp only [hfind, bind, Except.bind]
  rw [if_neg fun hdisks => hdisks.2 rfl]
  rw [hplace _ rfl, narrowPlace_adjacent List.length_append]
  dsimp only
  rw [if_neg hnear, List.append_assoc, List.drop_left, hentries]
  rfl

/-- Members are read back as they were written. -/
theorem read_write (hms : ∀ m ∈ ms, Fits m) (h : EndFits ms) : read (write ms) = .ok ⟨[], ms⟩ := by
  have hmembers := members_listed hms []
    (directory 0 ms ++ endRecord ms.length (directory 0 ms).length (ms.flatMap Member.localRecord).length)
    (by rw [List.length_nil, Nat.zero_add]; exact h.records)
  rw [List.nil_append, ← List.append_assoc, List.length_nil] at hmembers
  unfold read
  rw [directory_read hms h]
  simp only [bind, Except.bind, write, hmembers]
  rfl

end Patchwork.Zip
