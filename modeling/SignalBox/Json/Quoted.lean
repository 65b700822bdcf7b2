import SignalBox.Text.Hex

/-! The text between the quotes of a JSON string. A code point may be written as it is or as an
escape; beyond 16 bits the escape is a pair of surrogates, and half a pair stands for no text. -/

namespace SignalBox.Json.Quoted

def escaped? : Char → Option Char
  | '"' => some '"'
  | '\\' => some '\\'
  | '/' => some '/'
  | 'b' => some '\x08'
  | 'f' => some '\x0c'
  | 'n' => some '\n'
  | 'r' => some '\r'
  | 't' => some '\t'
  | _ => none

/-- The code points that a spelling stands for, halves of pairs still apart; none if it is not the
inside of a JSON string. -/
def codePoints? : Text → Option (List Nat)
  | [] => some []
  | '\\' :: 'u' :: a :: b :: c :: d :: rest => do
      let n ← Text.hex? [a, b, c, d]
      let later ← codePoints? rest
      some (n :: later)
  | '\\' :: c :: rest => do
      let e ← escaped? c
      let later ← codePoints? rest
      some (e.toNat :: later)
  | c :: rest =>
      if c.toNat < 0x20 ∨ c = '"' ∨ c = '\\' then none
      else (codePoints? rest).map (c.toNat :: ·)

def isHigh (n : Nat) : Bool :=
  0xD800 ≤ n && n < 0xDC00

def isLow (n : Nat) : Bool :=
  0xDC00 ≤ n && n < 0xE000

def paired? : List Nat → Option Text
  | [] => some []
  | [n] => if isHigh n || isLow n then none else some [Char.ofNat n]
  | n :: m :: rest =>
      if isHigh n then
        if isLow m then
          (paired? rest).map (Char.ofNat (0x10000 + (n - 0xD800) * 0x400 + (m - 0xDC00)) :: ·)
        else none
      else if isLow n then none
      else (paired? (m :: rest)).map (Char.ofNat n :: ·)

def isLexeme (lexeme : Text) : Bool :=
  (codePoints? lexeme).isSome

def decode? (lexeme : Text) : Option Text :=
  (codePoints? lexeme).bind paired?

def hexChar (n : Nat) : Char :=
  if n < 10 then Char.ofNat ('0'.toNat + n) else Char.ofNat ('a'.toNat + n - 10)

def escape? : Char → Option Char
  | '"' => some '"'
  | '\\' => some '\\'
  | '\x08' => some 'b'
  | '\x0c' => some 'f'
  | '\n' => some 'n'
  | '\r' => some 'r'
  | '\t' => some 't'
  | _ => none

theorem escaped?_of_escape? {c e : Char} (h : escape? c = some e) : escaped? e = some c := by
  unfold escape? at h
  split at h <;> cases h <;> rfl

/-- Only quotes, backslashes and control characters are escaped. -/
def encode : Text → Text
  | [] => []
  | c :: rest =>
      match escape? c with
      | some e => '\\' :: e :: encode rest
      | none =>
          if c.toNat < 0x20 then
            '\\' :: 'u' :: '0' :: '0' :: hexChar (c.toNat / 16) :: hexChar (c.toNat % 16) ::
              encode rest
          else c :: encode rest

def span? : Text → Option (Text × Text)
  | [] => none
  | '\\' :: c :: rest => (span? rest).map fun (lexeme, after) => ('\\' :: c :: lexeme, after)
  | c :: rest =>
      if c = '"' then some ([], rest)
      else (span? rest).map fun (lexeme, after) => (c :: lexeme, after)

theorem length_after_of_span? {s lexeme after : Text} (h : span? s = some (lexeme, after)) :
    after.length < s.length := by
  fun_induction span? s generalizing lexeme after with
  | case1 => contradiction
  | case2 c rest ih =>
      obtain ⟨⟨l, a⟩, found, same⟩ := Option.map_eq_some_iff.mp h
      cases same
      have := ih found
      simp only [List.length_cons]
      omega
  | case3 =>
      cases h
      simp
  | case4 c rest _ _ ih =>
      obtain ⟨⟨l, a⟩, found, same⟩ := Option.map_eq_some_iff.mp h
      cases same
      have := ih found
      simp only [List.length_cons]
      omega

end SignalBox.Json.Quoted
