import SignalBox.Json.Decode
import SignalBox.Proofs.Json.Document

namespace SignalBox.Json

variable {bound n : Nat} {value : Json} {α : Type}

theorem decodeLexeme_encode (s : Text) : decodeLexeme (Quoted.encode s) = pure s := by
  rw [decodeLexeme, Quoted.decode?_encode]

theorem decodeText_ofText (s : Text) : decodeText (.ofText s) = pure s :=
  decodeLexeme_encode s

theorem decodeCategory_ofText {c : Category} {s : Text} (spelled : Category.ofText? s = some c) :
    decodeCategory (.ofText s) = pure c := by
  rw [decodeCategory, decodeText_ofText, pure_bind, spelled]

theorem decodeCategory_ofText_blank {s : Text} (blank : Category.ofText? s = none) :
    decodeCategory (.ofText s) = throw (.refused .blankCategory) := by
  rw [decodeCategory, decodeText_ofText, pure_bind, blank]

theorem decodeNat_ofNat (small : n < bound) : decodeNat bound (.ofNat n) = pure n := by
  have digits : (Nat.toDigits 10 n).all Char.isDigit = true :=
    List.all_eq_true.mpr (Token.isDigit_toDigits n)
  have number : Nat.ofDigitChars 10 (Nat.toDigits 10 n) 0 = n :=
    Nat.ofDigitChars_toDigits (by decide) (by decide)
  rw [ofNat, decodeNat]
  simp only [number, digits]
  rw [if_pos ⟨trivial, small⟩]

theorem decode_render (decoder : Json → Decoded α) (written : Written value) :
    decode decoder value.render = decoder value := by
  rw [decode, ofText_render written]
  exact bind_pure _

end SignalBox.Json
