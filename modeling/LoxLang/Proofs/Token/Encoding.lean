import LoxLang.Text.Utf8
import Mathlib

/-!
Text that is written as bytes and read back. What is encoded decodes to itself (`decodeLossy_encode`),
and no ill formed bytes reach over a byte below 128: such a byte is a character of its own wherever it
stands (`decodeLossy_append`). A quote is decoded from the byte of a quote only (`quote_of_decoded`).
-/
namespace LoxLang.Utf8
set_option autoImplicit false

/-- The bytes of a text. -/
def encode (text : String) : List UInt8 :=
  text.toUTF8.data.toList

theorem encode_ofList (chars : List Char) :
    encode (String.ofList chars) = chars.flatMap String.utf8EncodeChar := by
  rw [encode, String.toUTF8_eq_toByteArray, String.toByteArray_ofList]
  exact List.toList_data_toByteArray

theorem encode_eq (text : String) : encode text = text.toList.flatMap String.utf8EncodeChar := by
  rw [← encode_ofList, String.ofList_toList]

theorem encode_append (first second : String) :
    encode (first ++ second) = encode first ++ encode second := by
  simp [encode_eq]

/-! ## Openings -/

section Opening
variable {o : Opening} {b : UInt8}

theorem admits_iff : o.admits b = true ↔ o.low.toNat ≤ b.toNat ∧ b.toNat ≤ o.high.toNat := by
  simp [Opening.admits, UInt8.le_iff_toNat_le]

theorem piecesFrom_push (h : o.admits b = true) (howed : 2 ≤ o.owed) (rest : List UInt8) :
    piecesFrom (some o) (b :: rest) = piecesFrom (some (o.push b)) rest := by
  have hmore : (o.push b).owed ≠ 0 := by
    simp only [Opening.push]
    omega
  simp only [piecesFrom, h, hmore, if_true, if_false]

theorem piecesFrom_last (h : o.admits b = true) (howed : o.owed = 1) (rest : List UInt8) :
    piecesFrom (some o) (b :: rest) =
      .character (Char.ofNat (o.bits * 64 + b.toNat % 64)) :: piecesFrom none rest := by
  simp [piecesFrom, h, Opening.push, howed]

end Opening

theorem start_ascii {b : UInt8} (h : b < 0x80) :
    start b = .inl (.character (Char.ofNat b.toNat)) :=
  if_pos h

/-! ## Encoded characters -/

/-- A byte of a character after its first. -/
def trail (n : Nat) : UInt8 :=
  .ofNat (n % 0x40 + 0x80)

theorem toNat_trail (n : Nat) : (trail n).toNat = n % 64 + 128 := by
  simp only [trail, UInt8.toNat_ofNat', Nat.reducePow]
  omega

theorem trail_mod (n : Nat) : (trail n).toNat % 64 = n % 64 := by
  rw [toNat_trail]
  omega

/-- Only the second byte of a character can be refused. -/
theorem admits_trail {o : Opening} (hlow : o.low = 0x80) (hhigh : o.high = 0xBF) (n : Nat) :
    o.admits (trail n) = true := by
  rw [admits_iff, toNat_trail, hlow, hhigh]
  simp
  omega

theorem start_two {n : Nat} (hlow : 0x7F < n) (hhigh : n ≤ 0x7FF) :
    start (.ofNat (n / 64 % 0x20 + 0xC0)) = .inr ⟨n / 64, 1, 1, 0x80, 0xBF⟩ := by
  have hlead : (UInt8.ofNat (n / 64 % 0x20 + 0xC0)).toNat = n / 64 + 192 := by
    simp only [UInt8.toNat_ofNat', Nat.reducePow]
    omega
  have hbits : (n / 64 + 192) % 32 = n / 64 := by omega
  generalize UInt8.ofNat (n / 64 % 0x20 + 0xC0) = b at hlead
  simp only [start, Opening.ofLead?, UInt8.lt_iff_toNat_lt, UInt8.le_iff_toNat_le, hlead, hbits]
  rw [if_neg (by simp), if_pos (by simp; omega)]

theorem piecesFrom_two {n : Nat} (hlow : 0x7F < n) (hhigh : n ≤ 0x7FF) (rest : List UInt8) :
    piecesFrom none (.ofNat (n / 64 % 0x20 + 0xC0) :: trail n :: rest) =
      .character (Char.ofNat n) :: piecesFrom none rest := by
  have hvalue : n / 64 * 64 + n % 64 = n := by omega
  rw [piecesFrom, start_two hlow hhigh]
  dsimp only
  rw [piecesFrom_last (admits_trail rfl rfl n) rfl, trail_mod, hvalue]

theorem start_three {n : Nat} (hlow : 0x7FF < n) (hhigh : n ≤ 0xFFFF)
    (hvalid : n < 0xD800 ∨ 0xDFFF < n) : ∃ low high,
      start (.ofNat (n / 4096 % 0x10 + 0xE0)) = .inr ⟨n / 4096, 1, 2, low, high⟩ ∧
        low.toNat ≤ n / 64 % 64 + 128 ∧ n / 64 % 64 + 128 ≤ high.toNat := by
  have hlead : (UInt8.ofNat (n / 4096 % 0x10 + 0xE0)).toNat = n / 4096 + 224 := by
    simp only [UInt8.toNat_ofNat', Nat.reducePow]
    omega
  have hbits : (n / 4096 + 224) % 16 = n / 4096 := by omega
  generalize UInt8.ofNat (n / 4096 % 0x10 + 0xE0) = b at hlead
  simp only [start, Opening.ofLead?, UInt8.lt_iff_toNat_lt, UInt8.le_iff_toNat_le,
    ← UInt8.toNat_inj, hlead, hbits, UInt8.toNat_ofNat]
  by_cases hfirst : n / 4096 = 0
  · refine ⟨0xA0, 0xBF, by simp [hfirst], ?_, ?_⟩ <;> simp <;> omega
  · by_cases hsurrogates : n / 4096 = 13
    · refine ⟨0x80, 0x9F, by simp [hsurrogates], ?_, ?_⟩ <;> simp
      omega
    · refine ⟨0x80, 0xBF, ?_, ?_, ?_⟩
      · repeat rw [if_neg (by omega)]
        rw [if_pos (by omega)]
      · simp
      · simp
        omega

theorem piecesFrom_three {n : Nat} (hlow : 0x7FF < n) (hhigh : n ≤ 0xFFFF)
    (hvalid : n < 0xD800 ∨ 0xDFFF < n) (rest : List UInt8) :
    piecesFrom none (.ofNat (n / 4096 % 0x10 + 0xE0) :: trail (n / 64) :: trail n :: rest) =
      .character (Char.ofNat n) :: piecesFrom none rest := by
  obtain ⟨low, high, hstart, hfrom, hto⟩ := start_three hlow hhigh hvalid
  have hsecond : Opening.admits ⟨n / 4096, 1, 2, low, high⟩ (trail (n / 64)) = true := by
    rw [admits_iff, toNat_trail]
    exact ⟨hfrom, hto⟩
  have hvalue : (n / 4096 * 64 + n / 64 % 64) * 64 + n % 64 = n := by omega
  rw [piecesFrom, hstart]
  dsimp only
  rw [piecesFrom_push hsecond (Nat.le_refl 2), piecesFrom_last (admits_trail rfl rfl n) rfl]
  simp only [Opening.push, trail_mod, hvalue]

theorem start_four {n : Nat} (hlow : 0xFFFF < n) (hhigh : n ≤ 0x10FFFF) : ∃ low high,
    start (.ofNat (n / 262144 % 0x08 + 0xF0)) = .inr ⟨n / 262144, 1, 3, low, high⟩ ∧
      low.toNat ≤ n / 4096 % 64 + 128 ∧ n / 4096 % 64 + 128 ≤ high.toNat := by
  have hlead : (UInt8.ofNat (n / 262144 % 0x08 + 0xF0)).toNat = n / 262144 + 240 := by
    simp only [UInt8.toNat_ofNat', Nat.reducePow]
    omega
  have hbits : (n / 262144 + 240) % 8 = n / 262144 := by omega
  generalize UInt8.ofNat (n / 262144 % 0x08 + 0xF0) = b at hlead
  simp only [start, Opening.ofLead?, UInt8.lt_iff_toNat_lt, UInt8.le_iff_toNat_le,
    ← UInt8.toNat_inj, hlead, hbits, UInt8.toNat_ofNat]
  by_cases hfirst : n / 262144 = 0
  · refine ⟨0x90, 0xBF, by simp [hfirst], ?_, ?_⟩ <;> simp <;> omega
  · by_cases hlast : n / 262144 = 4
    · refine ⟨0x80, 0x8F, by simp [hlast], ?_, ?_⟩ <;> simp
      omega
    · refine ⟨0x80, 0xBF, ?_, ?_, ?_⟩
      · repeat rw [if_neg (by omega)]
        rw [if_pos (by omega)]
      · simp
      · simp
        omega

theorem piecesFrom_four {n : Nat} (hlow : 0xFFFF < n) (hhigh : n ≤ 0x10FFFF) (rest : List UInt8) :
    piecesFrom none (.ofNat (n / 262144 % 0x08 + 0xF0) :: trail (n / 4096) :: trail (n / 64) ::
        trail n :: rest) =
      .character (Char.ofNat n) :: piecesFrom none rest := by
  obtain ⟨low, high, hstart, hfrom, hto⟩ := start_four hlow hhigh
  have hsecond : Opening.admits ⟨n / 262144, 1, 3, low, high⟩ (trail (n / 4096)) = true := by
    rw [admits_iff, toNat_trail]
    exact ⟨hfrom, hto⟩
  have hvalue :
      ((n / 262144 * 64 + n / 4096 % 64) * 64 + n / 64 % 64) * 64 + n % 64 = n := by omega
  rw [piecesFrom, hstart]
  dsimp only
  rw [piecesFrom_push hsecond (Nat.le_succ 2),
    piecesFrom_push (admits_trail rfl rfl (n / 64)) (Nat.le_refl 2),
    piecesFrom_last (admits_trail rfl rfl n) rfl]
  simp only [Opening.push, trail_mod, hvalue]

/-- The bytes of a character are one piece. -/
theorem piecesFrom_encoded (c : Char) (rest : List UInt8) :
    piecesFrom none (String.utf8EncodeChar c ++ rest) = .character c :: piecesFrom none rest := by
  have hvalid : c.val.toNat < 0xD800 ∨ 0xDFFF < c.val.toNat ∧ c.val.toNat < 0x110000 := c.valid
  have hchar : Char.ofNat c.val.toNat = c := Char.ofNat_toNat c
  unfold String.utf8EncodeChar
  dsimp only
  generalize c.val.toNat = n at hvalid hchar
  rw [← hchar]
  split
  · rename_i hone
    have hbyte : (UInt8.ofNat n).toNat = n := by
      simp
      omega
    have hascii : UInt8.ofNat n < 0x80 := by
      rw [UInt8.lt_iff_toNat_lt, hbyte]
      exact Nat.lt_succ_of_le hone
    rw [List.singleton_append, piecesFrom, start_ascii hascii, hbyte]
  · rename_i hone
    split
    · rename_i htwo
      exact piecesFrom_two (by omega) htwo rest
    · rename_i htwo
      split
      · rename_i hthree
        exact piecesFrom_three (by omega) hthree (by omega) rest
      · rename_i hthree
        exact piecesFrom_four (by omega) (by omega) rest

/-- What is encoded decodes to itself. -/
theorem decodeLossy_encode (text : String) : decodeLossy (encode text) = text := by
  have hpieces : ∀ chars : List Char,
      piecesFrom none (chars.flatMap String.utf8EncodeChar) = chars.map .character := by
    intro chars
    induction chars with
    | nil => rfl
    | cons c rest ih => rw [List.flatMap_cons, piecesFrom_encoded, ih, List.map_cons]
  have hshown : (text.toList.map Piece.character).map Piece.shown = text.toList := by
    rw [List.map_map]
    exact List.map_id _
  rw [decodeLossy, pieces, encode_eq, hpieces, hshown, String.ofList_toList]

/-! ## Bytes below 128 -/

/-- An opening that a byte below 128 does not continue, and that is completed to no character
below 128. -/
structure Opening.Proper (o : Opening) : Prop where
  low : 0x80 ≤ o.low.toNat
  high : o.high.toNat ≤ 0xBF
  bits : 2 ≤ o.bits * 64 + (o.low.toNat - 0x80)
  last : o.owed ≤ 1 → 2 ≤ o.bits

theorem proper_none (o : Opening) (h : none = some o) : o.Proper :=
  nomatch h

theorem proper_of_start {b : UInt8} {o : Opening} (h : start b = .inr o) : o.Proper := by
  have hall : ∀ n : Fin 256, (Opening.ofLead? (.ofFin n)).all fun o =>
      0x80 ≤ o.low.toNat && o.high.toNat ≤ 0xBF && 2 ≤ o.bits * 64 + (o.low.toNat - 0x80) &&
        (2 ≤ o.owed || 2 ≤ o.bits) := by
    decide +kernel
  have hb : (Opening.ofLead? b).all fun o =>
      0x80 ≤ o.low.toNat && o.high.toNat ≤ 0xBF && 2 ≤ o.bits * 64 + (o.low.toNat - 0x80) &&
        (2 ≤ o.owed || 2 ≤ o.bits) := hall b.toFin
  unfold start at h
  split at h
  · cases h
  · split at h
    · rename_i hlead
      cases h
      rw [hlead] at hb
      simp only [Option.all_some, Bool.and_eq_true, Bool.or_eq_true, decide_eq_true_eq] at hb
      obtain ⟨⟨⟨hlow, hhigh⟩, hbits⟩, hlast⟩ := hb
      exact ⟨hlow, hhigh, hbits, fun _ => by omega⟩
    · cases h

theorem Opening.Proper.push {o : Opening} (h : o.Proper) {b : UInt8} (hb : o.admits b = true) :
    (o.push b).Proper ∧ 2 ≤ (o.push b).bits := by
  have hbits := h.bits
  have hhigh := h.high
  rw [admits_iff] at hb
  have hmore : 2 ≤ o.bits * 64 + b.toNat % 64 := by omega
  refine ⟨⟨?_, ?_, ?_, fun _ => hmore⟩, hmore⟩ <;> simp [Opening.push]
  omega

theorem Opening.Proper.refuses {o : Opening} (h : o.Proper) {b : UInt8} (hb : b < 0x80) :
    o.admits b = false := by
  have hlow := h.low
  rw [UInt8.lt_iff_toNat_lt] at hb
  simp at hb
  rw [Bool.eq_false_iff, ne_eq, admits_iff]
  omega

theorem piece_of_start {b : UInt8} {piece : Piece} (h : start b = .inl piece) :
    piece = .character (Char.ofNat b.toNat) ∨ piece = .malformed 1 := by
  unfold start at h
  split at h
  · cases h
    exact .inl rfl
  · split at h
    · cases h
    · cases h
      exact .inr rfl

theorem quote_of_ofNat {n : Nat} (h : '"' = Char.ofNat n) : n = 34 := by
  have hvalue : (Char.ofNat n).toNat = 34 := congrArg Char.toNat h.symm
  unfold Char.ofNat at hvalue
  split at hvalue
  · simpa [Char.ofNatAux, Char.toNat, UInt32.toNat] using hvalue
  · exact absurd hvalue (by decide)

theorem quote_ne_replacement : '"' ≠ '\uFFFD' := by
  decide

/-- What one byte does to what has been begun before it: some pieces end with it, and none of them is a
quote unless the byte is one. -/
theorem exists_advance {pending : Option Opening} (h : ∀ o, pending = some o → o.Proper) (b : UInt8) :
    ∃ ended next, (∀ rest, piecesFrom pending (b :: rest) = ended ++ piecesFrom next rest) ∧
      (∀ o, next = some o → o.Proper) ∧ ('"' ∈ ended.map Piece.shown → b = 34) := by
  have hstart : ∃ ended next, (∀ rest, piecesFrom none (b :: rest) = ended ++ piecesFrom next rest) ∧
      (∀ o, next = some o → o.Proper) ∧ ('"' ∈ ended.map Piece.shown → b = 34) := by
    cases hb : start b with
    | inl piece =>
      refine ⟨[piece], none, fun rest => by simp [piecesFrom, hb], nofun, fun hmem => ?_⟩
      have hshown : '"' = piece.shown := List.mem_singleton.mp hmem
      rcases piece_of_start hb with rfl | rfl
      · exact UInt8.toNat_inj.mp (quote_of_ofNat hshown)
      · exact absurd hshown quote_ne_replacement
    | inr o =>
      refine ⟨[], some o, fun rest => by simp [piecesFrom, hb], ?_, nofun⟩
      rintro p hp
      cases hp
      exact proper_of_start hb
  cases pending with
  | none => exact hstart
  | some o =>
    have ho := h o rfl
    by_cases hadmits : o.admits b = true
    · obtain ⟨hproper, hbits⟩ := ho.push hadmits
      by_cases howed : (o.push b).owed = 0
      · refine ⟨[.character (Char.ofNat (o.push b).bits)], none,
          fun rest => by simp [piecesFrom, hadmits, howed], nofun, fun hmem => ?_⟩
        have hvalue := quote_of_ofNat (List.mem_singleton.mp hmem)
        have hlast := ho.last
        simp only [Opening.push] at howed hvalue
        omega
      · refine ⟨[], some (o.push b), fun rest => by simp [piecesFrom, hadmits, howed], ?_, nofun⟩
        rintro p hp
        cases hp
        exact hproper
    · obtain ⟨ended, next, hpieces, hnext, hquote⟩ := hstart
      refine ⟨.malformed o.read :: ended, next, fun rest => ?_, hnext, fun hmem => ?_⟩
      · rw [List.cons_append, ← hpieces]
        simp [piecesFrom, hadmits]
      · exact hquote ((List.mem_cons.mp hmem).resolve_left quote_ne_replacement)

/-- A byte below 128 is a character of its own, whatever has been begun before it. -/
theorem shown_append {b : UInt8} (hb : b < 0x80) (rest bytes : List UInt8)
    {pending : Option Opening} (h : ∀ o, pending = some o → o.Proper) :
    (piecesFrom pending (bytes ++ b :: rest)).map Piece.shown =
      (piecesFrom pending bytes).map Piece.shown ++ (piecesFrom none (b :: rest)).map Piece.shown := by
  induction bytes generalizing pending with
  | nil =>
    cases pending with
    | none => rfl
    | some o =>
      have hrefused := (h o rfl).refuses hb
      simp [piecesFrom, hrefused, start_ascii hb, Piece.shown]
  | cons c more ih =>
    obtain ⟨ended, next, hpieces, hnext, -⟩ := exists_advance h c
    rw [List.cons_append, hpieces, hpieces, List.map_append, List.map_append, ih hnext,
      List.append_assoc]

theorem decodeLossy_append {b : UInt8} (hb : b < 0x80) (bytes rest : List UInt8) :
    decodeLossy (bytes ++ b :: rest) = decodeLossy bytes ++ decodeLossy (b :: rest) := by
  rw [decodeLossy, pieces, shown_append hb rest bytes proper_none, String.ofList_append]
  rfl

theorem decodeLossy_cons {b : UInt8} (hb : b < 0x80) (rest : List UInt8) :
    decodeLossy (b :: rest) = String.ofList [Char.ofNat b.toNat] ++ decodeLossy rest := by
  rw [decodeLossy, pieces, piecesFrom, start_ascii hb, decodeLossy, pieces, ← String.ofList_append]
  rfl

theorem utf8EncodeChar_ascii {b : UInt8} (h : b < 0x80) :
    String.utf8EncodeChar (Char.ofNat b.toNat) = [b] := by
  have hall : ∀ n : Fin 256, UInt8.ofFin n < 0x80 →
      String.utf8EncodeChar (Char.ofNat (UInt8.ofFin n).toNat) = [.ofFin n] := by
    decide +kernel
  exact hall b.toFin h

/-- Bytes below 128 are encoded by themselves. -/
theorem encode_decoded {bytes : List UInt8} (h : ∀ b ∈ bytes, b < 0x80) :
    encode (decodeLossy bytes) = bytes := by
  induction bytes with
  | nil => rfl
  | cons b rest ih =>
    obtain ⟨hb, hrest⟩ := List.forall_mem_cons.mp h
    rw [decodeLossy_cons hb, encode_append, ih hrest, encode_ofList, List.flatMap_singleton,
      utf8EncodeChar_ascii hb, List.singleton_append]

/-! ## Quotes -/

theorem quote_of_shown {bytes : List UInt8} {pending : Option Opening}
    (h : ∀ o, pending = some o → o.Proper)
    (hquote : '"' ∈ (piecesFrom pending bytes).map Piece.shown) : 34 ∈ bytes := by
  induction bytes generalizing pending with
  | nil =>
    cases pending with
    | none => cases hquote
    | some o => exact absurd (List.mem_singleton.mp hquote) quote_ne_replacement
  | cons c more ih =>
    obtain ⟨ended, next, hpieces, hnext, hended⟩ := exists_advance h c
    rw [hpieces, List.map_append] at hquote
    rcases List.mem_append.mp hquote with hfirst | hlater
    · rw [hended hfirst]
      exact List.mem_cons_self
    · exact List.mem_cons_of_mem c (ih hnext hlater)

/-- A quote is decoded from the byte of a quote only. -/
theorem quote_of_decoded {bytes : List UInt8} (h : '"' ∈ (decodeLossy bytes).toList) : 34 ∈ bytes := by
  rw [decodeLossy, String.toList_ofList] at h
  exact quote_of_shown proper_none h

/-- The byte of a quote is encoded from a quote only. -/
theorem quote_of_encoded {text : String} (h : 34 ∈ encode text) : '"' ∈ text.toList := by
  obtain ⟨before, after, hsplit⟩ := List.append_of_mem h
  have htext := decodeLossy_encode text
  rw [hsplit, decodeLossy_append (by decide), decodeLossy_cons (by decide)] at htext
  simp [← htext]

end LoxLang.Utf8
