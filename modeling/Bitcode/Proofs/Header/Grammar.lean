import Bitcode.Proofs.Header

/-!
The grammar of headers. Reading a header accepts exactly the magic word, two counts and fields that
have the counted number and size, where the bytes that fill a field up to whole words may be any. What
follows the fields does not matter.
-/

namespace Bitcode

section LittleEndian

@[simp] theorem length_toLittleEndian (value count : Nat) :
    (toLittleEndian value count).length = count := by
  induction count generalizing value with
  | zero => rfl
  | succ count ih => simp [toLittleEndian, ih]

theorem littleEndian_toLittleEndian {value count : Nat} (hvalue : value < 256 ^ count) :
    littleEndian (toLittleEndian value count) = value := by
  induction count generalizing value with
  | zero =>
      have hzero : value = 0 := by simpa using hvalue
      rw [hzero]
      rfl
  | succ count ih =>
      have hrest : value / 256 < 256 ^ count := by
        rw [Nat.div_lt_iff_lt_mul (by decide), ← Nat.pow_succ]
        exact hvalue
      rw [toLittleEndian, littleEndian, ih hrest, UInt8.toNat_ofNat', Nat.mod_mod]
      exact Nat.mod_add_div value 256

theorem littleEndian_lt (bytes : List UInt8) : littleEndian bytes < 256 ^ bytes.length := by
  induction bytes with
  | nil => decide
  | cons byte rest ih =>
      have hbyte : byte.toNat < 256 := byte.toNat_lt
      rw [littleEndian, List.length_cons, Nat.pow_succ]
      omega

theorem toLittleEndian_littleEndian (bytes : List UInt8) :
    toLittleEndian (littleEndian bytes) bytes.length = bytes := by
  induction bytes with
  | nil => rfl
  | cons byte rest ih =>
      have hbyte : byte.toNat < 256 := byte.toNat_lt
      have hlow : (byte.toNat + 256 * littleEndian rest) % 256 = byte.toNat := by omega
      have hhigh : (byte.toNat + 256 * littleEndian rest) / 256 = littleEndian rest := by omega
      rw [littleEndian, List.length_cons, toLittleEndian, hlow, hhigh, ih, UInt8.ofNat_toNat]

end LittleEndian

namespace Header

/-- The bytes of fields, one after the other. A field is a number of 16 bits that joins its tag and its
type, the length of its data in 16 bits, the data, and any bytes up to a whole word. -/
inductive Lays : List HeaderField → List UInt8 → Prop where
  | nil : Lays [] []
  | cons {field : HeaderField} {fields : List HeaderField} {padding rest : List UInt8}
      (htag : field.tag < 2 ^ 12) (htype : field.type < 2 ^ 4) (hlength : field.data.size < 2 ^ 16)
      (hpadding : padding.length < 4) (hwords : 4 ∣ field.data.size + padding.length)
      (hrest : Lays fields rest) : Lays (field :: fields) (fieldBytes field ++ padding ++ rest)

@[simp] theorem length_fieldBytes (field : HeaderField) :
    (fieldBytes field).length = 4 + field.data.size := by
  simp only [fieldBytes, List.length_append, length_toLittleEndian, Array.length_toList]

theorem Lays.dvd_length {fields : List HeaderField} {body : List UInt8} (hlays : Lays fields body) :
    4 ∣ body.length := by
  induction hlays with
  | nil => exact Nat.dvd_zero 4
  | cons _ _ _ _ hwords _ ih =>
      rw [List.length_append, List.length_append, length_fieldBytes]
      omega

section Slices

variable {bytes : Array UInt8} {before middle after : List UInt8}

theorem toList_extract_of_append (hbytes : bytes.toList = before ++ (middle ++ after)) {stop : Nat}
    (hstop : stop = before.length + middle.length) :
    (bytes.extract before.length stop).toList = middle := by
  rw [Array.toList_extract, List.extract_eq_take_drop, hbytes, hstop, List.drop_left,
    Nat.add_sub_cancel_left, List.take_left]

theorem read16_of_append {value : Nat} (hvalue : value < 2 ^ 16)
    (hbytes : bytes.toList = before ++ (toLittleEndian value 2 ++ after)) :
    read16 bytes before.length = .ok value := by
  have hsize := congrArg List.length hbytes
  simp only [Array.length_toList, List.length_append, length_toLittleEndian] at hsize
  have hslice := toList_extract_of_append hbytes
    (show before.length + 2 = before.length + (toLittleEndian value 2).length by simp)
  rw [read16, if_pos (by omega), hslice, littleEndian_toLittleEndian hvalue]

theorem spelled_of_read16 {position value : Nat} (hread : read16 bytes position = .ok value) :
    value < 2 ^ 16 ∧
      toLittleEndian value 2 = (bytes.extract position (position + 2)).toList := by
  unfold read16 at hread
  split at hread
  · rename_i hinside
    have hlength : (bytes.extract position (position + 2)).toList.length = 2 := by
      rw [Array.length_toList, Array.size_extract]
      omega
    have hvalue := Except.ok.inj hread
    have hbound := littleEndian_lt (bytes.extract position (position + 2)).toList
    have hspelled := toLittleEndian_littleEndian (bytes.extract position (position + 2)).toList
    rw [hlength, hvalue] at hbound hspelled
    exact ⟨hbound, hspelled⟩
  · cases hread

theorem toList_extract_append {first middle last : Nat} (hfirst : first ≤ middle)
    (hlast : middle ≤ last) :
    (bytes.extract first middle).toList ++ (bytes.extract middle last).toList =
      (bytes.extract first last).toList := by
  rw [← Array.toList_append, Array.extract_append_extract, Nat.min_eq_left hfirst,
    Nat.max_eq_right hlast]

end Slices

theorem wordAligned_spec (size : Nat) :
    size ≤ wordAligned size ∧ wordAligned size < size + 4 ∧ 4 ∣ wordAligned size := by
  unfold wordAligned
  omega

section Fields

variable {region : Array UInt8}

theorem lays_of_readFields {count position finish : Nat} {fields : List HeaderField}
    (hread : readFields region count position = .ok (fields, finish))
    (hfinish : finish ≤ region.size) :
    fields.length = count ∧ position ≤ finish ∧
      Lays fields (region.extract position finish).toList := by
  induction count generalizing position fields with
  | zero =>
      obtain ⟨rfl, rfl⟩ := Prod.mk.inj (Except.ok.inj hread)
      refine ⟨rfl, Nat.le_refl _, ?_⟩
      rw [Array.extract_empty_of_stop_le_start (Nat.le_refl _)]
      exact Lays.nil
  | succ count ih =>
      obtain ⟨id, hid, hread⟩ := except_bind_eq_ok_iff.mp hread
      obtain ⟨length, hlength, hread⟩ := except_bind_eq_ok_iff.mp hread
      obtain ⟨hinside, hread⟩ := except_check_eq_ok_iff.mp hread
      obtain ⟨⟨rest, stop⟩, hrest, hread⟩ := except_bind_eq_ok_iff.mp hread
      obtain ⟨rfl, rfl⟩ := Prod.mk.inj (Except.ok.inj hread)
      obtain ⟨hcount, hforward, hlays⟩ := ih hrest
      obtain ⟨hidBound, hidBytes⟩ := spelled_of_read16 hid
      obtain ⟨hlengthBound, hlengthBytes⟩ := spelled_of_read16 hlength
      obtain ⟨hlong, hshort, hwords⟩ := wordAligned_spec length
      refine ⟨by rw [List.length_cons, hcount], by omega, ?_⟩
      have hdata : (region.extract (position + 4) (position + 4 + length)).size = length := by
        rw [Array.size_extract]
        omega
      have hpadding : (region.extract (position + 4 + length)
          (position + 4 + wordAligned length)).toList.length = wordAligned length - length := by
        rw [Array.length_toList, Array.size_extract]
        omega
      have hbytes : (region.extract position stop).toList =
          fieldBytes ⟨id / 16, id % 16, region.extract (position + 4) (position + 4 + length)⟩ ++
            (region.extract (position + 4 + length) (position + 4 + wordAligned length)).toList ++
            (region.extract (position + 4 + wordAligned length) stop).toList := by
        rw [fieldBytes, Nat.div_add_mod, hdata, hidBytes, hlengthBytes,
          toList_extract_append (by omega) (by omega), toList_extract_append (by omega) (by omega),
          toList_extract_append (by omega) (by omega), toList_extract_append (by omega) hforward]
      rw [hbytes]
      refine Lays.cons ?_ ?_ ?_ ?_ ?_ hlays
      · change id / 16 < 2 ^ 12
        omega
      · exact Nat.mod_lt _ (by decide)
      · change (region.extract (position + 4) (position + 4 + length)).size < 2 ^ 16
        omega
      · omega
      · rw [hdata, hpadding]
        omega

theorem read_fieldBytes {field : HeaderField} {before after : List UInt8}
    (htag : field.tag < 2 ^ 12) (htype : field.type < 2 ^ 4) (hlength : field.data.size < 2 ^ 16)
    (hregion : region.toList = before ++ (fieldBytes field ++ after)) :
    read16 region before.length = .ok (16 * field.tag + field.type) ∧
      read16 region (before.length + 2) = .ok field.data.size ∧
      before.length + 4 + field.data.size ≤ region.size ∧
      region.extract (before.length + 4) (before.length + 4 + field.data.size) = field.data := by
  have hsize := congrArg List.length hregion
  simp only [Array.length_toList, List.length_append, length_fieldBytes] at hsize
  have hid : region.toList = before ++ (toLittleEndian (16 * field.tag + field.type) 2 ++
      (toLittleEndian field.data.size 2 ++ (field.data.toList ++ after))) := by
    simp only [hregion, fieldBytes, List.append_assoc]
  have hsizeBytes : region.toList = (before ++ toLittleEndian (16 * field.tag + field.type) 2) ++
      (toLittleEndian field.data.size 2 ++ (field.data.toList ++ after)) := by
    rw [hid, List.append_assoc]
  have hdata : region.toList = (before ++ toLittleEndian (16 * field.tag + field.type) 2 ++
      toLittleEndian field.data.size 2) ++ (field.data.toList ++ after) := by
    rw [hsizeBytes, List.append_assoc (before ++ _)]
  refine ⟨read16_of_append (by omega) hid, ?_, by omega, ?_⟩
  · simpa using read16_of_append hlength hsizeBytes
  · apply Array.ext'
    simpa using toList_extract_of_append hdata rfl

theorem readFields_of_lays {fields : List HeaderField} {body : List UInt8}
    (hlays : Lays fields body) (before : List UInt8) (hregion : region.toList = before ++ body) :
    readFields region fields.length before.length = .ok (fields, region.size) := by
  induction hlays generalizing before with
  | nil =>
      have hsize := congrArg List.length hregion
      rw [Array.length_toList, List.append_nil] at hsize
      rw [hsize]
      rfl
  | @cons field fields padding rest htag htype hlength hpadding hwords _ ih =>
      rw [List.append_assoc] at hregion
      obtain ⟨hid, hsize, hinside, hdata⟩ := read_fieldBytes htag htype hlength hregion
      have hplace : before.length + 4 + wordAligned field.data.size =
          (before ++ (fieldBytes field ++ padding)).length := by
        rw [List.length_append, List.length_append, length_fieldBytes, wordAligned]
        omega
      have hnext := ih (before ++ (fieldBytes field ++ padding)) (by
        rw [hregion, List.append_assoc, List.append_assoc])
      rw [← hplace] at hnext
      have htagRead : (16 * field.tag + field.type) / 16 = field.tag := by omega
      have htypeRead : (16 * field.tag + field.type) % 16 = field.type := by omega
      rw [List.length_cons, readFields]
      refine except_bind_eq_ok_iff.mpr ⟨_, hid, except_bind_eq_ok_iff.mpr ⟨_, hsize,
        except_check_eq_ok_iff.mpr ⟨by omega, except_bind_eq_ok_iff.mpr ⟨_, hnext, ?_⟩⟩⟩⟩
      rw [hdata, htagRead, htypeRead]
      rfl

end Fields

/-- The bytes in front of the fields. -/
def opening (fieldCount byteCount : Nat) : List UInt8 :=
  magic ++ toLittleEndian fieldCount 2 ++ toLittleEndian byteCount 2

theorem length_opening (fieldCount byteCount : Nat) :
    (opening fieldCount byteCount).length = fixedSize := by
  simp [opening, magic, fixedSize]

theorem lays_of_parse {bytes : Array UInt8} {header : Header} (hparse : parse bytes = .ok header) :
    ∃ body rest, Lays header.fields body ∧ header.fields.length < 2 ^ 16 ∧ body.length < 2 ^ 16 ∧
      bytes.toList = opening header.fields.length body.length ++ body ++ rest ∧
      header.raw = bytes.extract 0 (fixedSize + body.length) := by
  obtain ⟨fieldCount, byteCount, hsize, hmagic, hfieldCount, hbyteCount, hfields, hraw⟩ :=
    parse_eq_ok_iff.mp hparse
  have hbody : (bytes.extract fixedSize (fixedSize + byteCount)).size = byteCount := by
    rw [Array.size_extract]
    omega
  obtain ⟨hcount, -, hlays⟩ := lays_of_readFields hfields (Nat.le_of_eq hbody.symm)
  obtain ⟨hfieldBound, hfieldBytes⟩ := spelled_of_read16 hfieldCount
  obtain ⟨hbyteBound, hbyteBytes⟩ := spelled_of_read16 hbyteCount
  have hwhole : (bytes.extract fixedSize (fixedSize + byteCount)).extract 0 byteCount =
      bytes.extract fixedSize (fixedSize + byteCount) := by
    rw [Array.extract_extract, Nat.add_zero, Nat.min_self]
  rw [hwhole] at hlays
  have hlength : (bytes.extract fixedSize (fixedSize + byteCount)).toList.length = byteCount := by
    rw [Array.length_toList, hbody]
  have hinside : 8 + byteCount ≤ bytes.size := hsize
  refine ⟨_, (bytes.extract (fixedSize + byteCount) bytes.size).toList, hlays, by omega, by omega,
    ?_, by rw [hlength]; exact hraw⟩
  rw [hlength, hcount, opening, hfieldBytes, hbyteBytes, ← hmagic, fixedSize,
    toList_extract_append (by decide) (by decide), toList_extract_append (by decide) (by decide),
    toList_extract_append (by decide) (by omega), toList_extract_append (by omega) hinside,
    Array.extract_size]

theorem parse_of_lays {bytes : Array UInt8} {header : Header} {body rest : List UInt8}
    (hlays : Lays header.fields body) (hcount : header.fields.length < 2 ^ 16)
    (hbody : body.length < 2 ^ 16)
    (hbytes : bytes.toList = opening header.fields.length body.length ++ body ++ rest)
    (hraw : header.raw = bytes.extract 0 (fixedSize + body.length)) : parse bytes = .ok header := by
  have hsize := congrArg List.length hbytes
  simp only [Array.length_toList, List.length_append, length_opening] at hsize
  have hmagic : bytes.toList = [] ++ (magic ++ (toLittleEndian header.fields.length 2 ++
      (toLittleEndian body.length 2 ++ (body ++ rest)))) := by
    simp only [hbytes, opening, List.append_assoc, List.nil_append]
  have hfieldCount : bytes.toList = magic ++ (toLittleEndian header.fields.length 2 ++
      (toLittleEndian body.length 2 ++ (body ++ rest))) := hmagic
  have hbyteCount : bytes.toList = (magic ++ toLittleEndian header.fields.length 2) ++
      (toLittleEndian body.length 2 ++ (body ++ rest)) := by
    rw [hfieldCount, List.append_assoc]
  have hregion : (bytes.extract fixedSize (fixedSize + body.length)).toList = body := by
    have hslice := toList_extract_of_append (hbytes.trans (List.append_assoc _ _ _)) rfl
    rwa [length_opening] at hslice
  have hregionSize : (bytes.extract fixedSize (fixedSize + body.length)).size = body.length := by
    rw [← Array.length_toList, hregion]
  have hfields := readFields_of_lays hlays [] hregion
  rw [hregionSize] at hfields
  refine parse_eq_ok_iff.mpr ⟨header.fields.length, body.length, by omega, ?_, ?_, ?_, hfields, hraw⟩
  · exact toList_extract_of_append hmagic rfl
  · exact read16_of_append hcount hfieldCount
  · exact read16_of_append hbody hbyteCount

theorem parse_ofVersion (version : UInt32) :
    parse (ofVersion version).raw = .ok (ofVersion version) := by
  have hsize : (toLittleEndian version.toNat 4).toArray.size = 4 := by
    rw [List.size_toArray, length_toLittleEndian]
  have hlays : Lays (ofVersion version).fields
      (fieldBytes ⟨1, 1, (toLittleEndian version.toNat 4).toArray⟩ ++ [] ++ []) := by
    refine Lays.cons (show 1 < 2 ^ 12 by decide) (show 1 < 2 ^ 4 by decide) ?_ (by decide) ?_ Lays.nil
    · rw [hsize]
      decide
    · rw [hsize]
      decide
  have hlength : (fieldBytes ⟨1, 1, (toLittleEndian version.toNat 4).toArray⟩ ++ [] ++
      []).length = 8 := by
    rw [List.append_nil, List.append_nil, length_fieldBytes, hsize]
  have hraw : (ofVersion version).raw.toList = opening (ofVersion version).fields.length 8 ++
      (fieldBytes ⟨1, 1, (toLittleEndian version.toNat 4).toArray⟩ ++ [] ++ []) ++ [] := by
    rw [List.append_nil, List.append_nil, List.append_nil]
    rfl
  have hrawSize := congrArg List.length hraw
  rw [List.length_append, List.length_append, length_opening, hlength] at hrawSize
  apply parse_of_lays hlays (show 1 < 2 ^ 16 by decide)
  · rw [hlength]
    decide
  · rw [hlength]
    exact hraw
  · rw [hlength]
    exact (Array.extract_eq_self_of_le (Nat.le_of_eq hrawSize)).symm

/-- Reading accepts exactly the bytes of the grammar, and finds their fields and the bytes of the
header. A header has whole words, and is read again from its own bytes, whatever follows them. So is
the header of each version. -/
theorem parse_accepts_grammar :
    (∀ (bytes : Array UInt8) (header : Header), parse bytes = .ok header ↔
      ∃ body rest : List UInt8, Lays header.fields body ∧ header.fields.length < 2 ^ 16 ∧
        body.length < 2 ^ 16 ∧
        bytes.toList = magic ++ toLittleEndian header.fields.length 2 ++
          toLittleEndian body.length 2 ++ body ++ rest ∧
        header.raw = bytes.extract 0 (8 + body.length) ∧ 4 ∣ 8 + body.length) ∧
      (∀ (bytes more : Array UInt8) (header : Header), parse bytes = .ok header →
        parse (header.raw ++ more) = .ok header) ∧
      ∀ version, parse (ofVersion version).raw = .ok (ofVersion version) := by
  refine ⟨?_, ?_, parse_ofVersion⟩
  · intro bytes header
    constructor
    · intro hparse
      obtain ⟨body, rest, hlays, hcount, hbody, hbytes, hraw⟩ := lays_of_parse hparse
      have hwords := hlays.dvd_length
      exact ⟨body, rest, hlays, hcount, hbody, hbytes, hraw, by omega⟩
    · rintro ⟨body, rest, hlays, hcount, hbody, hbytes, hraw, -⟩
      exact parse_of_lays hlays hcount hbody hbytes hraw
  · intro bytes more header hparse
    apply parse_of_extract_eq hparse
    · rw [Array.size_append]
      exact Nat.le_add_right _ _
    · rw [size, Array.extract_append_left, Array.extract_size]

/-- A version and a field of one byte, which three bytes that are not zero fill up. -/
def twoFields : Header where
  fields := [⟨1, 1, #[2, 0, 0, 0]⟩, ⟨2, 0, #[9]⟩]
  raw := #[0x50, 0x45, 0x58, 0x45, 2, 0, 16, 0, 0x11, 0, 4, 0, 2, 0, 0, 0, 0x20, 0, 1, 0, 9, 7, 7, 7]

theorem parse_accepts_grammar_twoFields :
    parse (twoFields.raw.push 0x42) = .ok twoFields ∧
      parse (twoFields.raw ++ #[0x43, 0xC0, 0xDE]) = .ok twoFields := by
  have hparse : parse (twoFields.raw.push 0x42) = .ok twoFields := by cbv
  exact ⟨hparse, parse_accepts_grammar.2.1 _ #[0x43, 0xC0, 0xDE] _ hparse⟩

end Header

end Bitcode
