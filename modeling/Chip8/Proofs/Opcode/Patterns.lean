import Chip8.Opcode.Encode

/-!
# Words and their patterns

Decoding and encoding, one against the other. The pattern of an instruction fixes most bits of its words and
leaves some open (`Opcode.leavesOpen`). A word decodes to an instruction exactly if it has the fixed bits of the
encoded instruction: `agree_encode_decode` is the one direction and `decode_of_agree` the other.
-/

namespace Chip8

theorem AluOp.toNibble_of_ofNibble? {c : Nibble} {op : AluOp} (h : ofNibble? c = some op) : op.toNibble = c := by
  unfold ofNibble? at h
  split at h <;> cases h <;> rfl

theorem AluOp.ofNibble?_eq_none_iff {c : Nibble} : ofNibble? c = none ↔ 0x8 ≤ c ∧ c ≤ 0xD ∨ c = 0xF := by
  revert c
  decide

namespace Word

variable {w w' : UInt16} {f a b c : Nibble} {k : UInt8} {nnn : Address}

/-! ## Taking words apart and putting them together -/

@[simp] theorem family_ofDigits : family (ofDigits f a b c) = f := by
  apply Fin.ext
  simp only [family, toNat_ofDigits]
  omega

@[simp] theorem x_ofDigits : x (ofDigits f a b c) = a := by
  apply Fin.ext
  simp only [x, toNat_ofDigits]
  omega

@[simp] theorem y_ofDigits : y (ofDigits f a b c) = b := by
  apply Fin.ext
  simp only [y, toNat_ofDigits]
  omega

@[simp] theorem n_ofDigits : n (ofDigits f a b c) = c := by
  apply Fin.ext
  simp only [n, toNat_ofDigits]
  omega

@[simp] theorem family_ofByte : family (ofByte f a k) = f := by
  have := k.toNat_lt
  apply Fin.ext
  simp only [family, toNat_ofByte]
  omega

@[simp] theorem x_ofByte : x (ofByte f a k) = a := by
  have := k.toNat_lt
  apply Fin.ext
  simp only [x, toNat_ofByte]
  omega

@[simp] theorem kk_ofByte : kk (ofByte f a k) = k := by
  have := k.toNat_lt
  apply UInt8.toNat_inj.1
  rw [toNat_kk, toNat_ofByte]
  omega

@[simp] theorem family_ofAddress : family (ofAddress f nnn) = f := by
  apply Fin.ext
  simp only [family, toNat_ofAddress]
  omega

@[simp] theorem nnn_ofAddress : Word.nnn (ofAddress f nnn) = nnn := by
  apply Fin.ext
  simp only [Word.nnn, toNat_ofAddress]
  omega

theorem ofDigits_family (w : UInt16) : ofDigits (family w) (x w) (y w) (n w) = w := by
  apply UInt16.toNat_inj.1
  rw [toNat_ofDigits, ← toNat_eq_digits]

theorem ofByte_family (w : UInt16) : ofByte (family w) (x w) (kk w) = w := by
  apply UInt16.toNat_inj.1
  rw [toNat_ofByte, toNat_kk]
  simp only [family, x]
  omega

theorem ofAddress_family (w : UInt16) : ofAddress (family w) (Word.nnn w) = w := by
  apply UInt16.toNat_inj.1
  rw [toNat_ofAddress]
  simp only [family, Word.nnn]
  omega

/-! ## The bits of a word -/

theorem testBit_family (w : UInt16) (i : Nat) : (family w).val.testBit i = w.toNat.testBit (i + 12) :=
  Nat.testBit_div_two_pow (n := 12) w.toNat i

theorem testBit_kk (w : UInt16) {i : Nat} (hi : i < 8) : (kk w).toNat.testBit i = w.toNat.testBit i := by
  rw [toNat_kk]
  exact (Nat.testBit_mod_two_pow w.toNat 8 i).trans (by rw [decide_eq_true hi, Bool.true_and])

/-- What a mask and a shift cut out of a word are its digits. -/
theorem ofByte_digits (w : UInt16) :
    Nibble.ofByte ((w &&& 0x0F00) >>> 8).toUInt8 = .ok (x w) ∧
      Nibble.ofByte ((w &&& 0x00F0) >>> 4).toUInt8 = .ok (y w) ∧ Nibble.ofByte (w &&& 0x000F).toUInt8 = .ok (n w) := by
  have hok {b : UInt8} {c : Nibble} (h : b.toNat = c.val) : Nibble.ofByte b = .ok c := by
    rw [Nibble.ofByte, Nibble.ofByte?_eq_some_iff.2 h]
  have hmask (v : Nat) : v &&& 15 = v % 16 := Nat.and_two_pow_sub_one_eq_mod v 4
  refine ⟨hok ?_, hok ?_, hok ?_⟩
  · have hcut : ((w &&& 0x0F00) >>> 8).toNat = (w.toNat &&& 0x0F00) >>> 8 := by simp
    rw [UInt16.toNat_toUInt8, hcut, Nat.shiftRight_and_distrib]
    simp only [Nat.reduceShiftRight, hmask, x]
    omega
  · have hcut : ((w &&& 0x00F0) >>> 4).toNat = (w.toNat &&& 0x00F0) >>> 4 := by simp
    rw [UInt16.toNat_toUInt8, hcut, Nat.shiftRight_and_distrib]
    simp only [Nat.reduceShiftRight, hmask, y]
    omega
  · have hcut : (w &&& 0x000F).toNat = w.toNat &&& 15 := by simp
    rw [UInt16.toNat_toUInt8, hcut, hmask]
    simp only [n]
    omega

/-- Two words are equal if they have all bits in common. -/
theorem eq_of_testBit (h : ∀ i, w.toNat.testBit i = w'.toNat.testBit i) : w = w' :=
  UInt16.toNat_inj.1 (Nat.eq_of_testBit_eq h)

/-- The bits apart from those of the second digit are the bits of the family and of the low byte. -/
theorem testBit_of_not_x_iff :
    (∀ i, ¬(8 ≤ i ∧ i < 12) → w.toNat.testBit i = w'.toNat.testBit i) ↔
      family w = family w' ∧ kk w = kk w' := by
  constructor
  · intro h
    refine ⟨Fin.ext (Nat.eq_of_testBit_eq fun i => ?_), UInt8.toNat_inj.1 (Nat.eq_of_testBit_eq fun i => ?_)⟩
    · rw [testBit_family, testBit_family]
      exact h (i + 12) (by omega)
    · by_cases hi : i < 8
      · rw [testBit_kk w hi, testBit_kk w' hi]
        exact h i (by omega)
      · have hlt (v : UInt16) : (kk v).toNat < 2 ^ i :=
          Nat.lt_of_lt_of_le (kk v).toNat_lt (Nat.pow_le_pow_right (by decide) (Nat.not_lt.1 hi))
        rw [Nat.testBit_lt_two_pow (hlt w), Nat.testBit_lt_two_pow (hlt w')]
  · rintro ⟨hf, hk⟩ i hi
    by_cases hlow : i < 8
    · rw [← testBit_kk w hlow, hk, testBit_kk w' hlow]
    · obtain ⟨j, rfl⟩ : ∃ j, i = j + 12 := ⟨i - 12, by omega⟩
      rw [← testBit_family, hf, testBit_family]

/-- The bits apart from those of the last digit are the bits of the first three. -/
theorem testBit_of_not_n_iff :
    (∀ i, ¬i < 4 → w.toNat.testBit i = w'.toNat.testBit i) ↔
      family w = family w' ∧ x w = x w' ∧ y w = y w' := by
  have hquot (v : UInt16) (i : Nat) : (v.toNat / 16).testBit i = v.toNat.testBit (i + 4) :=
    Nat.testBit_div_two_pow (n := 4) v.toNat i
  have hdigits : (family w = family w' ∧ x w = x w' ∧ y w = y w') ↔ w.toNat / 16 = w'.toNat / 16 := by
    simp only [Fin.ext_iff, family, x, y]
    omega
  rw [hdigits]
  constructor
  · intro h
    refine Nat.eq_of_testBit_eq fun i => ?_
    rw [hquot, hquot]
    exact h (i + 4) (by omega)
  · intro h i hi
    obtain ⟨j, rfl⟩ : ∃ j, i = j + 4 := ⟨i - 4, by omega⟩
    rw [← hquot, h, hquot]

end Word

namespace Opcode

open Word

/-- The bits that the pattern of an instruction leaves open, counted from the lowest: the second digit of `00E0`
and `00EE`, and the last one of `5xy0` and `9xy0`. -/
def leavesOpen : Opcode → Nat → Prop
  | .clearDisplay, i | .ret, i => 8 ≤ i ∧ i < 12
  | .skipRegEqualReg .., i | .skipRegNotEqualReg .., i => i < 4
  | _, _ => False

/-- Two words have the same bits wherever the pattern of `op` fixes them. -/
def Agree (op : Opcode) (w w' : UInt16) : Prop := ∀ i, ¬op.leavesOpen i → w.toNat.testBit i = w'.toNat.testBit i

/-- The words that stand for no instruction. -/
def Unlisted (w : UInt16) : Prop :=
  family w = 0x0 ∧ kk w ≠ 0xE0 ∧ kk w ≠ 0xEE ∨
    family w = 0x8 ∧ (0x8 ≤ n w ∧ n w ≤ 0xD ∨ n w = 0xF) ∨
    family w = 0xE ∧ kk w ≠ 0x9E ∧ kk w ≠ 0xA1 ∨
    family w = 0xF ∧ kk w ≠ 0x07 ∧ kk w ≠ 0x0A ∧ kk w ≠ 0x15 ∧ kk w ≠ 0x18 ∧ kk w ≠ 0x1E ∧ kk w ≠ 0x29 ∧
      kk w ≠ 0x33 ∧ kk w ≠ 0x55 ∧ kk w ≠ 0x65

variable {op : Opcode} {w w' : UInt16}

theorem Agree.of_eq (h : w = w') : op.Agree w w' := fun _ _ => by rw [h]

theorem Agree.symm (h : op.Agree w w') : op.Agree w' w := fun i hi => (h i hi).symm

theorem Agree.trans {v : UInt16} (h : op.Agree w w') (h' : op.Agree w' v) : op.Agree w v :=
  fun i hi => (h i hi).trans (h' i hi)

/-- A word with the fixed bits of an encoded instruction decodes to it. -/
theorem decode_of_agree (hop : ∀ v, op ≠ .unknown v) (h : op.Agree op.encode w) : decode w = op := by
  cases op with
  | clearDisplay | ret =>
    obtain ⟨hf, hk⟩ := testBit_of_not_x_iff.1 h
    simp only [decode, ← hf, decodeSystem, ← hk, encode]
    rfl
  | skipRegEqualReg x y | skipRegNotEqualReg x y =>
    obtain ⟨hf, hx, hy⟩ := testBit_of_not_n_iff.1 h
    simp only [decode, ← hf, ← hx, ← hy, encode, family_ofDigits, x_ofDigits, y_ofDigits]
  | unknown v => exact absurd rfl (hop v)
  | alu x y op =>
    cases eq_of_testBit fun i => h i id
    simp [decode, encode, decodeAlu, AluOp.ofNibble?_toNibble]
  | _ =>
    cases eq_of_testBit fun i => h i id
    simp [decode, encode, decodeKey, decodeMisc]

/-- A word has the fixed bits of the instruction that it decodes to. -/
theorem agree_encode_decode (w : UInt16) : (decode w).Agree (decode w).encode w := by
  have haddress {f : Nibble} (hf : family w = f) : ofAddress f (Word.nnn w) = w := hf ▸ ofAddress_family w
  have hbyte {f : Nibble} {b : UInt8} (hf : family w = f) (hk : (kk w).toNat = b.toNat) : ofByte f (x w) b = w := by
    rw [← hf, ← UInt8.toNat_inj.1 hk, ofByte_family]
  have hdigits {f c : Nibble} (hf : family w = f) (hn : n w = c) : ofDigits f (x w) (y w) c = w := by
    rw [← hf, ← hn, ofDigits_family]
  unfold decode
  split
  case h_1 hf =>
    unfold decodeSystem
    split
    case h_1 hk => exact testBit_of_not_x_iff.2 ⟨hf.symm, (UInt8.toNat_inj.1 hk).symm⟩
    case h_2 hk => exact testBit_of_not_x_iff.2 ⟨hf.symm, (UInt8.toNat_inj.1 hk).symm⟩
    case h_3 => exact .of_eq rfl
  case h_2 hf | h_3 hf | h_11 hf | h_12 hf => exact .of_eq (haddress hf)
  case h_4 hf | h_5 hf | h_7 hf | h_8 hf | h_13 hf => exact .of_eq (hbyte hf rfl)
  case h_6 hf | h_10 hf =>
    exact testBit_of_not_n_iff.2 ⟨family_ofDigits.trans hf.symm, x_ofDigits, y_ofDigits⟩
  case h_9 hf =>
    unfold decodeAlu
    split
    case h_1 op hop => exact .of_eq (hdigits hf (AluOp.toNibble_of_ofNibble? hop).symm)
    case h_2 => exact .of_eq rfl
  case h_14 hf => exact .of_eq (hdigits hf rfl)
  case h_15 hf =>
    unfold decodeKey
    split
    case h_1 hk | h_2 hk => exact .of_eq (hbyte hf hk)
    case h_3 => exact .of_eq rfl
  case h_16 =>
    have hf : family w = 0xF := by grind
    unfold decodeMisc
    split
    case h_10 => exact .of_eq rfl
    all_goals
      rename_i hk
      exact .of_eq (hbyte hf hk)

/-- Words decode alike exactly if they differ in no bit that the pattern fixes. -/
theorem decode_eq_decode_iff : decode w = decode w' ↔ (decode w).Agree w w' := by
  constructor
  · intro h
    have h' := agree_encode_decode w'
    rw [← h] at h'
    exact (agree_encode_decode w).symm.trans h'
  · intro h
    by_cases hu : ∃ v, decode w = .unknown v
    · obtain ⟨v, hv⟩ := hu
      rw [hv] at h
      cases eq_of_testBit fun i => h i id
      rfl
    · exact (decode_of_agree (fun v hv => hu ⟨v, hv⟩) ((agree_encode_decode w).trans h)).symm

/-! ## Words that stand for no instruction -/

theorem decodeSystem_eq_unknown_iff {v : UInt16} :
    decodeSystem w = .unknown v ↔ w = v ∧ kk w ≠ 0xE0 ∧ kk w ≠ 0xEE := by
  unfold decodeSystem
  split <;> simp_all [← UInt8.toNat_inj]

theorem decodeAlu_eq_unknown_iff {v : UInt16} :
    decodeAlu w = .unknown v ↔ w = v ∧ (0x8 ≤ n w ∧ n w ≤ 0xD ∨ n w = 0xF) := by
  rw [← AluOp.ofNibble?_eq_none_iff]
  unfold decodeAlu
  split <;> simp_all

theorem decodeKey_eq_unknown_iff {v : UInt16} :
    decodeKey w = .unknown v ↔ w = v ∧ kk w ≠ 0x9E ∧ kk w ≠ 0xA1 := by
  unfold decodeKey
  split <;> simp_all [← UInt8.toNat_inj]

theorem decodeMisc_eq_unknown_iff {v : UInt16} :
    decodeMisc w = .unknown v ↔
      w = v ∧ kk w ≠ 0x07 ∧ kk w ≠ 0x0A ∧ kk w ≠ 0x15 ∧ kk w ≠ 0x18 ∧ kk w ≠ 0x1E ∧ kk w ≠ 0x29 ∧
        kk w ≠ 0x33 ∧ kk w ≠ 0x55 ∧ kk w ≠ 0x65 := by
  unfold decodeMisc
  split <;> simp_all [← UInt8.toNat_inj]

/-- A word that stands for no instruction decodes to itself, unknown. -/
theorem decode_eq_unknown_iff {v : UInt16} : decode w = .unknown v ↔ w = v ∧ Unlisted w := by
  unfold decode Unlisted
  split
  case h_1 hf => simp [hf, decodeSystem_eq_unknown_iff]
  case h_9 hf => simp [hf, decodeAlu_eq_unknown_iff]
  case h_15 hf => simp [hf, decodeKey_eq_unknown_iff]
  case h_16 =>
    have hf : family w = 0xF := by grind
    simp [hf, decodeMisc_eq_unknown_iff]
  all_goals
    rename_i hf
    simp [hf]

/-- Decoding and encoding are inverse to each other as far as the patterns go. An instruction comes back from its
word. A word decodes to no instruction exactly if it is unlisted, and otherwise to the one whose word it is, up to
the bits that the pattern leaves open; two words decode alike exactly if they agree in all others. The digits that
the decoder cuts out of a word are nibbles. -/
theorem decode_inverts_encode :
    (∀ op, (∀ v, op ≠ .unknown v) → decode op.encode = op) ∧
      (∀ w v, decode w = .unknown v ↔ w = v ∧ Unlisted w) ∧
      (∀ w, (decode w).Agree (decode w).encode w) ∧
      (∀ w w', decode w = decode w' ↔ (decode w).Agree w w') ∧
      ∀ w : UInt16, Nibble.ofByte ((w &&& 0x0F00) >>> 8).toUInt8 = .ok (x w) ∧
        Nibble.ofByte ((w &&& 0x00F0) >>> 4).toUInt8 = .ok (y w) ∧
        Nibble.ofByte (w &&& 0x000F).toUInt8 = .ok (n w) := by
  refine ⟨?_, fun w v => decode_eq_unknown_iff, agree_encode_decode, fun w w' => decode_eq_decode_iff, ofByte_digits⟩
  intro op hop
  exact decode_of_agree hop (.of_eq rfl)

/-- A register comparison with any last digit, a return with any second digit, and a word of family 8 that is no
operation. -/
theorem decode_inverts_encode_open :
    decode 0x5AB0 = .skipRegEqualReg 0xA 0xB ∧ decode 0x5AB7 = .skipRegEqualReg 0xA 0xB ∧ decode 0x0FEE = .ret ∧
      decode 0x8128 = .unknown 0x8128 := by
  obtain ⟨hback, hunknown, -, halike, -⟩ := decode_inverts_encode
  have hskip : decode 0x5AB0 = .skipRegEqualReg 0xA 0xB := hback (.skipRegEqualReg 0xA 0xB) nofun
  have hret : decode 0x00EE = .ret := hback .ret nofun
  refine ⟨hskip, ?_, ?_, ?_⟩
  · rw [← hskip, eq_comm, halike, hskip]
    exact testBit_of_not_n_iff.2 ⟨rfl, rfl, rfl⟩
  · rw [← hret, eq_comm, halike, hret]
    exact testBit_of_not_x_iff.2 ⟨rfl, rfl⟩
  · exact (hunknown _ _).2 ⟨rfl, .inr (.inl ⟨rfl, .inl ⟨by decide, by decide⟩⟩)⟩

end Opcode

end Chip8
