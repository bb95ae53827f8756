import Mathlib.Tactic.SplitIfs
import SceneCodegen.Text.Lines
import SceneCodegen.Text.Utf8

/-!
# What is written is read back

The bytes of a character are one piece of the reading, whatever follows them, so the strict reading
gives back every text that was encoded. Reading with plain line ends gives it back exactly if no
carriage return stands in it.
-/
namespace SceneCodegen.Text

theorem carriageReturn_notMem_plainLineEnds (cs : List Char) : '\r' ∉ plainLineEnds cs := by
  fun_induction plainLineEnds cs with
  | case1 => exact List.not_mem_nil
  | case2 rest ih => simpa using ih
  | case3 c rest _ ih =>
    rw [List.mem_cons, not_or]
    refine ⟨?_, ih⟩
    by_cases h : c = '\r'
    · simp [h]
    · simpa [h] using fun he => h he.symm

theorem plainLineEnds_eq_self_iff {cs : List Char} : plainLineEnds cs = cs ↔ '\r' ∉ cs :=
  ⟨fun h => h ▸ carriageReturn_notMem_plainLineEnds cs, plainLineEnds_eq_self⟩

namespace Utf8

theorem toNat_byte {n : Nat} (h : n < 256) : (UInt8.ofNat n).toNat = n :=
  UInt8.toNat_ofNat_of_lt' h

theorem firstPiece_of_goodTail {lead : UInt8} {tail : List UInt8}
    (hlead : tailLength lead.toNat = some tail.length) (rest : List UInt8)
    (hgood : goodTail (secondByteRange lead.toNat) tail.length (tail ++ rest) = tail.length) :
    firstPiece lead (tail ++ rest) =
      ⟨lead :: tail, .ok (Char.ofNat (codePoint lead.toNat tail))⟩ := by
  simp [firstPiece, hlead, hgood]

/-- A good continuation byte; those after it lie in the usual range. -/
theorem goodTail_cons {range : Nat × Nat} {n : Nat} (hn : n < 256)
    (hrange : range.1 ≤ n ∧ n ≤ range.2) (wanted : Nat) (rest : List UInt8) :
    goodTail range (wanted + 1) (UInt8.ofNat n :: rest) =
      goodTail (0x80, 0xBF) wanted rest + 1 := by
  simp [goodTail, toNat_byte hn, hrange]

theorem goodTail_nil (range : Nat × Nat) (rest : List UInt8) : goodTail range 0 rest = 0 := by
  cases rest <;> rfl

/-- The six low bits of a code point, as a continuation byte. -/
theorem lowBits_inRange (v : Nat) : 0x80 ≤ v % 64 + 128 ∧ v % 64 + 128 ≤ 0xBF := by omega

theorem twoBytes_inRange {v : Nat} (hlow : 0x80 ≤ v) (hhigh : v ≤ 0x7FF) :
    tailLength (v / 64 % 32 + 192) = some 1 ∧
      (secondByteRange (v / 64 % 32 + 192)).1 ≤ v % 64 + 128 ∧
      v % 64 + 128 ≤ (secondByteRange (v / 64 % 32 + 192)).2 := by
  have hlead : 0xC2 ≤ v / 64 % 32 + 192 ∧ v / 64 % 32 + 192 < 0xE0 := by omega
  generalize v / 64 % 32 + 192 = lead at hlead
  have hne : lead ≠ 0xE0 ∧ lead ≠ 0xED ∧ lead ≠ 0xF0 ∧ lead ≠ 0xF4 := by omega
  have hnot : ¬lead < 0x80 ∧ ¬lead < 0xC2 := by omega
  simp only [tailLength, hnot, hlead, if_true, if_false, secondByteRange, beq_iff_eq, hne]
  exact ⟨trivial, lowBits_inRange v⟩

/-- Overlong forms and surrogates are what the second byte's range leaves out. -/
theorem threeBytes_inRange {v : Nat} (hlow : 0x800 ≤ v) (hhigh : v ≤ 0xFFFF)
    (hvalid : v < 0xD800 ∨ 0xDFFF < v) :
    tailLength (v / 4096 % 16 + 224) = some 2 ∧
      (secondByteRange (v / 4096 % 16 + 224)).1 ≤ v / 64 % 64 + 128 ∧
      v / 64 % 64 + 128 ≤ (secondByteRange (v / 4096 % 16 + 224)).2 := by
  have hlead : 0xE0 ≤ v / 4096 % 16 + 224 ∧ v / 4096 % 16 + 224 < 0xF0 := by omega
  refine ⟨?_, ?_⟩
  · have hnot : ¬v / 4096 % 16 + 224 < 0x80 ∧ ¬v / 4096 % 16 + 224 < 0xC2 ∧
        ¬v / 4096 % 16 + 224 < 0xE0 := by omega
    simp only [tailLength, hnot, hlead, if_true, if_false]
  · simp only [secondByteRange, beq_iff_eq]
    split_ifs <;> omega

theorem fourBytes_inRange {v : Nat} (hlow : 0x10000 ≤ v) (hhigh : v < 0x110000) :
    tailLength (v / 262144 % 8 + 240) = some 3 ∧
      (secondByteRange (v / 262144 % 8 + 240)).1 ≤ v / 4096 % 64 + 128 ∧
      v / 4096 % 64 + 128 ≤ (secondByteRange (v / 262144 % 8 + 240)).2 := by
  have hlead : 0xF0 ≤ v / 262144 % 8 + 240 ∧ v / 262144 % 8 + 240 < 0xF5 := by omega
  refine ⟨?_, ?_⟩
  · have hnot : ¬v / 262144 % 8 + 240 < 0x80 ∧ ¬v / 262144 % 8 + 240 < 0xC2 ∧
        ¬v / 262144 % 8 + 240 < 0xE0 ∧ ¬v / 262144 % 8 + 240 < 0xF0 := by omega
    simp only [tailLength, hnot, hlead, if_true, if_false]
  · simp only [secondByteRange, beq_iff_eq]
    split_ifs <;> omega

/-- The bytes of a character are read as one piece, whatever follows them. -/
theorem firstPiece_utf8EncodeChar (c : Char) (rest : List UInt8) :
    ∃ lead tail, String.utf8EncodeChar c = lead :: tail ∧
      firstPiece lead (tail ++ rest) = ⟨lead :: tail, .ok c⟩ := by
  have hvalid : c.val.toNat < 0xD800 ∨ 0xDFFF < c.val.toNat ∧ c.val.toNat < 0x110000 := c.valid
  have hself : Char.ofNat c.val.toNat = c := Char.ofNat_toNat c
  fun_cases String.utf8EncodeChar c with
  | case1 v h =>
    have hlead : (UInt8.ofNat v).toNat = v := toNat_byte (by omega)
    have hlength : tailLength v = some 0 := if_pos (by omega)
    refine ⟨_, _, rfl, ?_⟩
    rw [firstPiece_of_goodTail (hlead.symm ▸ hlength) rest (goodTail_nil ..), hlead]
    exact congrArg (Piece.mk _ <| .ok ·) hself
  | case2 v h h' =>
    have hlead : (UInt8.ofNat (v / 64 % 32 + 192)).toNat = v / 64 % 32 + 192 :=
      toNat_byte (by omega)
    have hb : (UInt8.ofNat (v % 64 + 128)).toNat = v % 64 + 128 := toNat_byte (by omega)
    obtain ⟨hlength, hsecond⟩ := twoBytes_inRange (v := v) (by omega) h'
    refine ⟨_, _, rfl, ?_⟩
    rw [firstPiece_of_goodTail (hlead.symm ▸ hlength) rest ?_, hlead]
    · have hpoint : codePoint (v / 64 % 32 + 192) [UInt8.ofNat (v % 64 + 128)] = v := by
        simp only [codePoint, List.length_cons, List.length_nil, List.foldl_cons,
          List.foldl_nil, hb]
        omega
      rw [hpoint, hself]
    · rw [hlead]
      simp only [List.cons_append, List.nil_append, List.length_cons, List.length_nil]
      rw [goodTail_cons (by omega) hsecond, goodTail_nil]
  | case3 v h h' h'' =>
    have hlead : (UInt8.ofNat (v / 4096 % 16 + 224)).toNat = v / 4096 % 16 + 224 :=
      toNat_byte (by omega)
    have hb : (UInt8.ofNat (v / 64 % 64 + 128)).toNat = v / 64 % 64 + 128 := toNat_byte (by omega)
    have hb' : (UInt8.ofNat (v % 64 + 128)).toNat = v % 64 + 128 := toNat_byte (by omega)
    obtain ⟨hlength, hsecond⟩ := threeBytes_inRange (v := v) (by omega) h'' (by omega)
    refine ⟨_, _, rfl, ?_⟩
    rw [firstPiece_of_goodTail (hlead.symm ▸ hlength) rest ?_, hlead]
    · have hpoint : codePoint (v / 4096 % 16 + 224)
          [UInt8.ofNat (v / 64 % 64 + 128), UInt8.ofNat (v % 64 + 128)] = v := by
        simp only [codePoint, List.length_cons, List.length_nil, List.foldl_cons,
          List.foldl_nil, hb,
          hb']
        omega
      rw [hpoint, hself]
    · rw [hlead]
      simp only [List.cons_append, List.nil_append, List.length_cons, List.length_nil]
      rw [goodTail_cons (by omega) hsecond, goodTail_cons (by omega) (lowBits_inRange v),
        goodTail_nil]
  | case4 v h h' h'' =>
    have hlead : (UInt8.ofNat (v / 262144 % 8 + 240)).toNat = v / 262144 % 8 + 240 :=
      toNat_byte (by omega)
    have hb : (UInt8.ofNat (v / 4096 % 64 + 128)).toNat = v / 4096 % 64 + 128 :=
      toNat_byte (by omega)
    have hb' : (UInt8.ofNat (v / 64 % 64 + 128)).toNat = v / 64 % 64 + 128 := toNat_byte (by omega)
    have hb'' : (UInt8.ofNat (v % 64 + 128)).toNat = v % 64 + 128 := toNat_byte (by omega)
    obtain ⟨hlength, hsecond⟩ := fourBytes_inRange (v := v) (by omega) (by omega)
    refine ⟨_, _, rfl, ?_⟩
    rw [firstPiece_of_goodTail (hlead.symm ▸ hlength) rest ?_, hlead]
    · have hpoint : codePoint (v / 262144 % 8 + 240) [UInt8.ofNat (v / 4096 % 64 + 128),
          UInt8.ofNat (v / 64 % 64 + 128), UInt8.ofNat (v % 64 + 128)] = v := by
        simp only [codePoint, List.length_cons, List.length_nil, List.foldl_cons,
          List.foldl_nil, hb,
          hb', hb'']
        omega
      rw [hpoint, hself]
    · rw [hlead]
      simp only [List.cons_append, List.nil_append, List.length_cons, List.length_nil]
      rw [goodTail_cons (by omega) hsecond, goodTail_cons (by omega) (lowBits_inRange (v / 64)),
        goodTail_cons (by omega) (lowBits_inRange v), goodTail_nil]

theorem encode_ofList_cons (c : Char) (cs : List Char) :
    encode (String.ofList (c :: cs)) = String.utf8EncodeChar c ++ encode (String.ofList cs) := by
  simp [encode]

theorem decodePieces_encode (cs : List Char) (position : Nat) :
    decodePieces position (pieces (encode (String.ofList cs))) = .ok cs := by
  induction cs generalizing position with
  | nil => simp [encode, pieces, decodePieces]
  | cons c cs ih =>
    obtain ⟨lead, tail, hbytes, hpiece⟩ :=
      firstPiece_utf8EncodeChar c (encode (String.ofList cs))
    rw [encode_ofList_cons, hbytes, List.cons_append, pieces]
    simp only [hpiece, List.length_cons, Nat.add_sub_cancel, List.drop_left, decodePieces, ih,
      Except.map]

/-- The strict reading gives back every text that was encoded. -/
theorem decode_encode (s : String) : decode (encode s) = .ok s := by
  have h := decodePieces_encode s.toList 0
  rw [String.ofList_toList] at h
  simp [decode, h, Except.map]

end Utf8
end SceneCodegen.Text
