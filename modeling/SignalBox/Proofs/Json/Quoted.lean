import SignalBox.Json.Token

namespace SignalBox.Json.Quoted

variable {rest : Text} {points : List Nat} {c e : Char} {n : Nat}

theorem hex?_hexChar (control : n < 32) :
    Text.hex? ['0', '0', hexChar (n / 16), hexChar (n % 16)] = some n := by
  revert n
  decide

theorem ne_of_escape?_none (plain : escape? c = none) : c ≠ '"' ∧ c ≠ '\\' := by
  constructor
  · rintro rfl
    contradiction
  · rintro rfl
    contradiction

theorem codePoints?_escape (escaped : escape? c = some e)
    (later : codePoints? rest = some points) :
    codePoints? ('\\' :: e :: rest) = some (c.toNat :: points) := by
  have read := escaped?_of_escape? escaped
  rw [codePoints?, read, later]
  · rfl
  · rintro _ _ _ _ _ rfl _
    contradiction

theorem codePoints?_plain (visible : ¬ c.toNat < 0x20) (quote : c ≠ '"') (backslash : c ≠ '\\')
    (later : codePoints? rest = some points) :
    codePoints? (c :: rest) = some (c.toNat :: points) := by
  rw [codePoints?, later]
  · simp [visible, quote, backslash]
  · exact fun _ _ _ _ _ same _ => backslash same
  · exact fun _ _ same _ => backslash same

theorem codePoints?_encode (s : Text) : codePoints? (encode s) = some (s.map Char.toNat) := by
  induction s with
  | nil => rfl
  | cons c s ih =>
      rw [encode]
      split
      · next e escaped => exact codePoints?_escape escaped ih
      · next plain =>
          split
          · next control =>
              rw [codePoints?, hex?_hexChar control, ih]
              rfl
          · next visible =>
              obtain ⟨quote, backslash⟩ := ne_of_escape?_none plain
              exact codePoints?_plain visible quote backslash ih

theorem not_half (c : Char) : isHigh c.toNat = false ∧ isLow c.toNat = false := by
  have valid : c.toNat < 0xD800 ∨ 0xDFFF < c.toNat ∧ c.toNat < 0x110000 := c.valid
  simp only [isHigh, isLow, Bool.and_eq_false_iff, decide_eq_false_iff_not]
  omega

theorem paired?_cons (c : Char) (points : List Nat) :
    paired? (c.toNat :: points) = (paired? points).map (c :: ·) := by
  obtain ⟨high, low⟩ := not_half c
  cases points with
  | nil => simp [paired?, high, low]
  | cons m points => simp [paired?, high, low]

theorem paired?_toNat (s : Text) : paired? (s.map Char.toNat) = some s := by
  induction s with
  | nil => rfl
  | cons c s ih =>
      rw [List.map_cons, paired?_cons, ih]
      rfl

theorem decode?_encode (s : Text) : decode? (encode s) = some s := by
  rw [decode?, codePoints?_encode]
  exact paired?_toNat s

theorem isLexeme_encode (s : Text) : isLexeme (encode s) = true := by
  rw [isLexeme, codePoints?_encode]
  rfl

theorem span?_escape (e : Char) (lexeme s : Text) (later : span? s = some (lexeme, rest)) :
    span? ('\\' :: e :: s) = some ('\\' :: e :: lexeme, rest) := by
  rw [span?, later]
  rfl

theorem span?_plain (quote : c ≠ '"') (backslash : c ≠ '\\') {lexeme s : Text}
    (later : span? s = some (lexeme, rest)) : span? (c :: s) = some (c :: lexeme, rest) := by
  rw [span?, if_neg quote, later]
  · rfl
  · exact fun _ _ same _ => backslash same

theorem hexChar_plain (digit : n < 16) : hexChar n ≠ '"' ∧ hexChar n ≠ '\\' := by
  revert n
  decide

theorem span?_encode (s rest : Text) :
    span? (encode s ++ '"' :: rest) = some (encode s, rest) := by
  induction s with
  | nil => rfl
  | cons c s ih =>
      rw [encode]
      split
      · exact span?_escape _ _ _ ih
      · next plain =>
          split
          · next control =>
              obtain ⟨quote, backslash⟩ := hexChar_plain (n := c.toNat / 16) (by omega)
              obtain ⟨lastQuote, lastBackslash⟩ := hexChar_plain (Nat.mod_lt c.toNat (by omega))
              have digits := span?_plain quote backslash (span?_plain lastQuote lastBackslash ih)
              exact span?_escape _ _ _ (span?_plain (by decide) (by decide)
                (span?_plain (by decide) (by decide) digits))
          · obtain ⟨quote, backslash⟩ := ne_of_escape?_none plain
            exact span?_plain quote backslash ih

end SignalBox.Json.Quoted
