import PorSe.Lib.Stdio

/-! The test case files of `lib/Basic/KTest.cpp`. -/

namespace KTestFile
open List Nat BitVec
open Stdio

/-- A string in memory, without the zero byte at its end. -/
abbrev CString := { s : List (BitVec 8) // 0 ∉ s }

/-- An array with its number of elements, an `unsigned`. -/
abbrev Counted (α : Type) := { l : List α // l.length < 2 ^ 32 }

structure KTestObject where
  name : CString
  bytes : Counted (BitVec 8)

structure KTest where
  version : BitVec 32
  args : Counted CString
  symArgvs : BitVec 32
  symArgvLen : BitVec 32
  objects : Counted KTestObject

def KTEST_VERSION : BitVec 32 := 3

def KTEST_MAGIC : List (BitVec 8) := [0x4b, 0x54, 0x45, 0x53, 0x54]

def BOUT_MAGIC : List (BitVec 8) := [0x42, 0x4f, 0x55, 0x54, 0x0a]

/-- The characters in a buffer, up to the first zero byte. -/
def CString.ofBuffer (data : List (BitVec 8)) : CString :=
  ⟨data.takeWhile (· != 0), fun h => absurd (mem_takeWhile_imp h) (by decide)⟩

def Counted.count {α : Type} (l : Counted α) : BitVec 32 := BitVec.ofNat 32 l.1.length

/-! ## Writing -/

variable (value : BitVec 32)

def uint32Bytes : List (BitVec 8) :=
  [(value >>> 24).setWidth 8, (value >>> 16).setWidth 8, (value >>> 8).setWidth 8, (value >>> 0).setWidth 8]

def writeUint32 : Writer (BitVec 8) := putItems (uint32Bytes value) 1 4

def writeString (value : CString) : Writer (BitVec 8) := fun f => do
  let len := BitVec.ofNat 32 value.1.length
  let f ← writeUint32 len f
  putItems value.1 len.toNat 1 f

variable (o : KTestObject)

def writeObject : Writer (BitVec 8) := fun f => do
  let f ← writeString o.name f
  let f ← writeUint32 o.bytes.count f
  putItems o.bytes.1 o.bytes.count.toNat 1 f

/-- The contents of the file, unless an error is reported. -/
def kTestToFile (bo : KTest) : Option (List (BitVec 8)) := do
  let f ← putItems KTEST_MAGIC KTEST_MAGIC.length 1 []
  let f ← writeUint32 KTEST_VERSION f
  let f ← writeUint32 bo.args.count f
  let f ← bo.args.1.foldlM (fun f arg => writeString arg f) f
  let f ← writeUint32 bo.symArgvs f
  let f ← writeUint32 bo.symArgvLen f
  let f ← writeUint32 bo.objects.count f
  bo.objects.1.foldlM (fun f o => writeObject o f) f

/-! ## Reading -/

def uint32Value : List (BitVec 8) → BitVec 32
  | [b₀, b₁, b₂, b₃] =>
    (((((b₀.setWidth 32 <<< 8) + b₁.setWidth 32) <<< 8) + b₂.setWidth 32) <<< 8) + b₃.setWidth 32
  | _ => 0

def readUint32 : Reader (BitVec 8) (BitVec 32) := do
  let data ← takeItem 4
  pure (uint32Value data)

def readString : Reader (BitVec 8) CString := do
  let len ← readUint32
  -- the buffer of `len + 1` bytes has no room for the string if the sum overflows
  if len + 1 = 0 then failure
  else do
    let data ← takeItem len.toNat
    pure (CString.ofBuffer data)

def readBytes (numBytes : BitVec 32) : Reader (BitVec 8) (Counted (BitVec 8)) := do
  let data ← takeItem numBytes.toNat
  pure ⟨data.take numBytes.toNat, (length_take_le _ _).trans_lt numBytes.isLt⟩

def readObject : Reader (BitVec 8) KTestObject := do
  let name ← readString
  let numBytes ← readUint32
  let bytes ← readBytes numBytes
  pure ⟨name, bytes⟩

def readCounted {α : Type} (r : Reader (BitVec 8) α) (n : BitVec 32) : Reader (BitVec 8) (Counted α) := do
  let l ← times r n.toNat
  pure ⟨l.1, l.2.trans_lt n.isLt⟩

def kTestCheckHeader : Reader (BitVec 8) Unit := do
  let header ← takeItem KTEST_MAGIC.length
  if header ≠ KTEST_MAGIC ∧ header ≠ BOUT_MAGIC then failure else pure ()

def readSymArgv (version : BitVec 32) : Reader (BitVec 8) (BitVec 32 × BitVec 32) :=
  if version ≥ 2 then do
    let symArgvs ← readUint32
    let symArgvLen ← readUint32
    pure (symArgvs, symArgvLen)
  else pure (0, 0)

def readFile : Reader (BitVec 8) KTest := do
  kTestCheckHeader
  let version ← readUint32
  if version > KTEST_VERSION then failure
  else do
    let numArgs ← readUint32
    let args ← readCounted readString numArgs
    let symArgv ← readSymArgv version
    let numObjects ← readUint32
    let objects ← readCounted readObject numObjects
    pure ⟨version, args, symArgv.1, symArgv.2, objects⟩

def kTestFromFile (f : List (BitVec 8)) : Option KTest := (readFile f).map Prod.fst

/-! ## What is in the file -/

variable (s : CString)

def CString.written : CString :=
  ⟨s.1.take (s.1.length % 2 ^ 32), fun h => s.2 (mem_of_mem_take h)⟩

def KTestObject.written : KTestObject := { o with name := o.name.written }

variable (k : KTest)

def KTest.written : KTest where
  version := KTEST_VERSION
  args := ⟨k.args.1.map CString.written, by rw [length_map]; exact k.args.2⟩
  symArgvs := k.symArgvs
  symArgvLen := k.symArgvLen
  objects := ⟨k.objects.1.map KTestObject.written, by rw [length_map]; exact k.objects.2⟩

def stringContents : List (BitVec 8) :=
  uint32Bytes (BitVec.ofNat 32 s.1.length) ++ s.written.1

def objectContents : List (BitVec 8) :=
  stringContents o.name ++ (uint32Bytes o.bytes.count ++ o.bytes.1)

def contents : List (BitVec 8) :=
  KTEST_MAGIC ++ (uint32Bytes KTEST_VERSION ++ (uint32Bytes k.args.count ++ (k.args.1.flatMap stringContents ++
    (uint32Bytes k.symArgvs ++ (uint32Bytes k.symArgvLen ++ (uint32Bytes k.objects.count ++
      k.objects.1.flatMap objectContents))))))

/-! ## What the writer does -/

lemma Counted.toNat_count {α : Type} (l : Counted α) : l.count.toNat = l.1.length := by
  rw [Counted.count, toNat_ofNat, mod_eq_of_lt l.2]

lemma CString.toNat_length : (BitVec.ofNat 32 s.1.length).toNat = s.written.1.length := by
  rw [toNat_ofNat, CString.written, length_take, min_eq_left (mod_le _ _)]

lemma CString.take_length : s.1.take s.written.1.length = s.written.1 := by
  rw [← s.toNat_length]
  rfl

lemma writes_uint32 : Writes (writeUint32 value) True (uint32Bytes value) :=
  (writes_putItems (uint32Bytes value) 1 (by decide)).congr (fun _ => rfl) (by decide)

lemma writes_string : Writes (writeString s) (s.written.1 ≠ []) (stringContents s) := by
  have hdata := writes_putItems s.1 (BitVec.ofNat 32 s.1.length).toNat one_ne_zero
  rw [mul_one, s.toNat_length, s.take_length] at hdata
  refine ((writes_uint32 _).andThen hdata).congr (fun f => ?_) ?_
  · rw [← s.toNat_length]
    rfl
  · rw [true_and, ne_nil_iff_length_pos, Nat.pos_iff_ne_zero]

lemma writes_object : Writes (writeObject o) (o.name.written.1 ≠ [] ∧ o.bytes.1 ≠ []) (objectContents o) := by
  have hdata := writes_putItems o.bytes.1 o.bytes.count.toNat one_ne_zero
  rw [mul_one, o.bytes.toNat_count, take_length] at hdata
  refine ((writes_string o.name).andThen ((writes_uint32 _).andThen hdata)).congr (fun f => ?_) ?_
  · rw [← o.bytes.toNat_count]
    rfl
  · rw [true_and, ne_nil_iff_length_pos (l := o.bytes.1), Nat.pos_iff_ne_zero]

def Writable : Prop :=
  (∀ s ∈ k.args.1, s.written.1 ≠ []) ∧ ∀ o ∈ k.objects.1, o.name.written.1 ≠ [] ∧ o.bytes.1 ≠ []

lemma kTestToFile_spec : (Writable k → kTestToFile k = some (contents k)) ∧ (¬ Writable k → kTestToFile k = none) := by
  have hmagic := (writes_putItems KTEST_MAGIC KTEST_MAGIC.length one_ne_zero)
  have hwrites := hmagic.andThen ((writes_uint32 KTEST_VERSION).andThen ((writes_uint32 k.args.count).andThen
    ((writes_foldlM writes_string k.args.1).andThen ((writes_uint32 k.symArgvs).andThen
      ((writes_uint32 k.symArgvLen).andThen ((writes_uint32 k.objects.count).andThen
        (writes_foldlM writes_object k.objects.1)))))))
  have hwritable : Writable k ↔ KTEST_MAGIC.length ≠ 0 ∧ True ∧ True ∧ (∀ s ∈ k.args.1, s.written.1 ≠ []) ∧
      True ∧ True ∧ True ∧ ∀ o ∈ k.objects.1, o.name.written.1 ≠ [] ∧ o.bytes.1 ≠ [] := by
    simp only [true_and]
    exact (and_iff_right (by decide)).symm
  constructor
  · intro h
    exact hwrites.done (hwritable.mp h) []
  · intro h
    exact hwrites.fails (fun h' => h (hwritable.mpr h')) []

/-! ## What the reader does -/

lemma uint32Value_bytes : uint32Value (uint32Bytes value) = value := by
  apply eq_of_toNat_eq
  simp only [uint32Bytes, uint32Value, toNat_add, toNat_shiftLeft, toNat_setWidth, toNat_ushiftRight]
  omega

lemma reads_uint32 : Reads readUint32 True (uint32Bytes value) value := by
  have hread := (reads_takeItem (uint32Bytes value)).map uint32Value
  rw [uint32Value_bytes] at hread
  exact ⟨fun _ => hread.done (by simp [uint32Bytes]), fun h => absurd trivial h⟩

lemma CString.ofBuffer_eq : CString.ofBuffer s.1 = s := by
  apply Subtype.ext
  refine takeWhile_eq_self_iff.mpr fun b hb => ?_
  exact bne_iff_ne.mpr fun hzero => s.2 (hzero ▸ hb)

lemma reads_string :
    Reads readString (s.written.1.length + 1 ≠ 2 ^ 32 ∧ s.written.1 ≠ []) (stringContents s) s.written := by
  have hitem := (reads_takeItem s.written.1).map CString.ofBuffer
  rw [CString.ofBuffer_eq, ← s.toNat_length] at hitem
  refine ((reads_uint32 _).bind _ (hitem.guard (BitVec.ofNat 32 s.1.length + 1 = 0))).of_iff ?_
  have hwrap : BitVec.ofNat 32 s.1.length + 1 = 0 ↔ s.written.1.length + 1 = 2 ^ 32 := by
    rw [← s.toNat_length]
    bv_omega
  rw [true_and, hwrap]

lemma reads_bytes (bytes : Counted (BitVec 8)) : Reads (readBytes bytes.count) (bytes.1 ≠ []) bytes.1 bytes := by
  have hitem := reads_takeItem bytes.1
  rw [← bytes.toNat_count] at hitem
  have hread := hitem.map fun data => (⟨data.take bytes.count.toNat,
    (length_take_le _ _).trans_lt bytes.count.isLt⟩ : Counted (BitVec 8))
  have heq : bytes.1.take bytes.count.toNat = bytes.1 := by rw [bytes.toNat_count, take_length]
  simp only [heq] at hread
  exact hread

lemma reads_object : Reads readObject ((o.name.written.1.length + 1 ≠ 2 ^ 32 ∧ o.name.written.1 ≠ []) ∧ o.bytes.1 ≠ [])
      (objectContents o) o.written := by
  apply Reads.of_iff
  · apply Reads.bind _ (reads_string o.name)
    apply Reads.bind _ (reads_uint32 o.bytes.count)
    exact (reads_bytes o.bytes).map _
  · rw [true_and]

lemma reads_counted {α : Type} {r : Reader (BitVec 8) α} {enc : α → List (BitVec 8)} {dec : α → α} {p : α → Prop}
    (h : ∀ a, Reads r (p a) (enc a) (dec a)) (l : Counted α) :
    Reads (readCounted r l.count) (∀ a ∈ l.1, p a) (l.1.flatMap enc)
      ⟨l.1.map dec, (length_map dec).trans_lt l.2⟩ :=
  (reads_times h l.1 l.toNat_count.symm).map _

lemma reads_header : Reads kTestCheckHeader True KTEST_MAGIC () := by
  apply Reads.of_iff
  · rw [← append_nil KTEST_MAGIC]
    apply Reads.bind _ (reads_takeItem KTEST_MAGIC)
    exact (reads_pure ()).guard _
  · decide

lemma reads_symArgv (symArgvs symArgvLen : BitVec 32) :
    Reads (readSymArgv KTEST_VERSION) True (uint32Bytes symArgvs ++ uint32Bytes symArgvLen) (symArgvs, symArgvLen) := by
  apply Reads.of_iff
  · apply Reads.bind _ (reads_uint32 symArgvs)
    exact (reads_uint32 symArgvLen).map _
  · rw [true_and]

def Readable : Prop :=
  (∀ s ∈ k.args.1, s.written.1.length + 1 ≠ 2 ^ 32 ∧ s.written.1 ≠ []) ∧
    ∀ o ∈ k.objects.1, (o.name.written.1.length + 1 ≠ 2 ^ 32 ∧ o.name.written.1 ≠ []) ∧ o.bytes.1 ≠ []

lemma reads_file : Reads readFile (Readable k) (contents k) k.written := by
  apply Reads.of_iff
  · apply Reads.bind _ reads_header
    apply Reads.bind _ (reads_uint32 KTEST_VERSION)
    apply Reads.guard
    apply Reads.bind _ (reads_uint32 k.args.count)
    apply Reads.bind _ (reads_counted reads_string k.args)
    apply Reads.bind _ (reads_symArgv k.symArgvs k.symArgvLen)
    apply Reads.bind _ (reads_uint32 k.objects.count)
    exact (reads_counted reads_object k.objects).map _
  · have hversion : ¬ KTEST_VERSION > KTEST_VERSION := by decide
    simp [hversion, Readable]

/-! ## The round trip -/

def StringFits : Prop := s.1 ≠ [] ∧ s.1.length < 2 ^ 32 - 1

lemma CString.written_eq_iff : s.written = s ↔ s.1.length < 2 ^ 32 := by
  rw [← Subtype.coe_inj, CString.written, take_eq_self_iff]
  omega

lemma stringFits_iff : StringFits s ↔ (s.written.1.length + 1 ≠ 2 ^ 32 ∧ s.written.1 ≠ []) ∧ s.written = s := by
  constructor
  · rintro ⟨hne, hlt⟩
    have heq : s.written = s := s.written_eq_iff.mpr (by omega)
    rw [heq]
    exact ⟨⟨by omega, hne⟩, rfl⟩
  · rintro ⟨⟨hlength, hne⟩, heq⟩
    have hlt := s.written_eq_iff.mp heq
    rw [heq] at hlength hne
    exact ⟨hne, by omega⟩

lemma KTestObject.written_eq_iff : o.written = o ↔ o.name.written = o.name := by
  rw [KTestObject.mk.injEq]
  exact and_iff_left rfl

lemma map_eq_self_iff {α : Type} {f : α → α} {l : List α} : l.map f = l ↔ ∀ a ∈ l, f a = a := by
  rw [← map_inj_left, map_id']

lemma KTest.written_eq_iff : k.written = k ↔ k.version = KTEST_VERSION ∧ (∀ s ∈ k.args.1, s.written = s) ∧
      ∀ o ∈ k.objects.1, o.name.written = o.name := by
  obtain ⟨_, ⟨_, _⟩, _, _, _, _⟩ := k
  simp only [KTest.written, KTest.mk.injEq, Subtype.mk.injEq, map_eq_self_iff, KTestObject.written_eq_iff, true_and]
  rw [eq_comm]

lemma writable_of_readable {k : KTest} (h : Readable k) : Writable k :=
  ⟨fun s hs => (h.1 s hs).2, fun o ho => ⟨(h.2 o ho).1.2, (h.2 o ho).2⟩⟩

/-- Exactly test cases of the current version with proper strings and no empty objects are read back. -/
theorem kTest_round_trip (k : KTest) : (kTestToFile k).bind kTestFromFile = some k ↔
      k.version = KTEST_VERSION ∧ (∀ arg ∈ k.args.1, StringFits arg) ∧
      ∀ o ∈ k.objects.1, StringFits o.name ∧ o.bytes.1 ≠ [] := by
  have hread : (kTestToFile k).bind kTestFromFile = some k ↔ Readable k ∧ k.written = k := by
    by_cases hreadable : Readable k
    · rw [(kTestToFile_spec k).1 (writable_of_readable hreadable), Option.bind_some, kTestFromFile,
        ← append_nil (contents k), (reads_file k).done hreadable, Option.map_some, Option.some.injEq]
      exact (and_iff_right hreadable).symm
    · have hnone : (kTestToFile k).bind kTestFromFile = none := by
        by_cases hwritable : Writable k
        · rw [(kTestToFile_spec k).1 hwritable, Option.bind_some, kTestFromFile, ← append_nil (contents k),
            (reads_file k).fails hreadable, Option.map_none]
        · rw [(kTestToFile_spec k).2 hwritable, Option.bind_none]
      rw [hnone]
      exact ⟨nofun, fun h => absurd h.1 hreadable⟩
  rw [hread, k.written_eq_iff]
  constructor
  · rintro ⟨⟨hargs, hobjects⟩, hversion, hargs', hobjects'⟩
    refine ⟨hversion, fun s hs => (stringFits_iff s).mpr ⟨hargs s hs, hargs' s hs⟩, fun o ho => ?_⟩
    exact ⟨(stringFits_iff o.name).mpr ⟨(hobjects o ho).1, hobjects' o ho⟩, (hobjects o ho).2⟩
  · rintro ⟨hversion, hargs, hobjects⟩
    refine ⟨⟨fun s hs => ((stringFits_iff s).mp (hargs s hs)).1, fun o ho => ?_⟩, hversion,
      fun s hs => ((stringFits_iff s).mp (hargs s hs)).2, fun o ho => ?_⟩
    · exact ⟨((stringFits_iff o.name).mp (hobjects o ho).1).1, (hobjects o ho).2⟩
    · exact ((stringFits_iff o.name).mp (hobjects o ho).1).2

/-- An empty argument or object makes the writing fail. -/
theorem kTestToFile_empty :
    kTestToFile ⟨KTEST_VERSION, ⟨[⟨[], not_mem_nil⟩], by decide⟩, 0, 0, ⟨[], by decide⟩⟩ = none ∧
    kTestToFile ⟨KTEST_VERSION, ⟨[], by decide⟩, 0, 0, ⟨[⟨⟨[0x61], by decide⟩, ⟨[], by decide⟩⟩], by decide⟩⟩ = none :=
  ⟨rfl, rfl⟩

end KTestFile
