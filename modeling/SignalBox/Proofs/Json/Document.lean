import SignalBox.Json.Document
import SignalBox.Proofs.Json.Quoted

/-! A value that is written as text is the value of that text, and the text ends with it. -/

namespace SignalBox.Json

namespace Token

variable {rest word : Text} {c : Char} {token : Token} {n : Nat}

theorem row_punctuation (found : punctuation? c = some token) (printed : isSpace c = false) :
    row (c :: rest) = token :: row rest := by
  rw [row, if_neg (Bool.not_eq_true _ ▸ printed), found]

theorem row_quoted (s rest : Text) :
    row ('"' :: (Quoted.encode s ++ '"' :: rest)) = .string (Quoted.encode s) :: row rest := by
  have unpunctuated : punctuation? '"' = none := rfl
  rw [row, if_neg (by decide)]
  simp only [unpunctuated, if_true]
  split
  · next absent =>
      rw [Quoted.span?_encode] at absent
      contradiction
  · next lexeme after found =>
      rw [Quoted.span?_encode] at found
      cases found
      rw [ofLexeme, if_pos (Quoted.isLexeme_encode s)]

theorem isWordChar_plain (wordChar : isWordChar c = true) :
    isSpace c = false ∧ punctuation? c = none ∧ c ≠ '"' := by
  refine ⟨?_, ?_, ?_⟩
  · rw [← Bool.not_eq_true]
    intro space
    simp only [isSpace, Bool.or_eq_true, decide_eq_true_eq] at space
    rcases space with ((rfl | rfl) | rfl) | rfl <;> contradiction
  · unfold punctuation?
    split <;> first | rfl | contradiction
  · rintro rfl
    contradiction

theorem row_word (nonempty : word ≠ []) (wordChars : word.all isWordChar = true)
    (apart : ∀ c, rest.head? = some c → isWordChar c = false) :
    row (word ++ rest) = ofWord word :: row rest := by
  have takeRest : rest.takeWhile isWordChar = [] ∧ rest.dropWhile isWordChar = rest := by
    cases rest with
    | nil => exact ⟨rfl, rfl⟩
    | cons d rest => simp [apart d rfl]
  cases word with
  | nil => contradiction
  | cons c word =>
      obtain ⟨first, later⟩ := List.forall_mem_cons.mp (List.all_eq_true.mp wordChars)
      obtain ⟨printed, unpunctuated, unquoted⟩ := isWordChar_plain first
      rw [List.cons_append, row, if_neg (Bool.not_eq_true _ ▸ printed)]
      simp only [unpunctuated]
      rw [if_neg unquoted, if_pos first, List.takeWhile_append_of_pos later,
        List.dropWhile_append_of_pos later, takeRest.1, takeRest.2, List.append_nil]

theorem head?_toDigits (positive : 0 < n) : (Nat.toDigits 10 n).head? ≠ some '0' := by
  have single : ∀ d, d < 10 → 0 < d → [Nat.digitChar d].head? ≠ some '0' := by decide
  induction n using Nat.strongRecOn with
  | ind n ih =>
      by_cases small : n < 10
      · rw [Nat.toDigits_of_lt_base small]
        exact single n small positive
      · have front := ih (n / 10) (by omega) (by omega)
        have digits : Nat.toDigits 10 (n / 10) ++ Nat.toDigits 10 (n % 10) = Nat.toDigits 10 n := by
          rw [Nat.toDigits_append_toDigits (by decide) (by omega) (by omega), Nat.div_add_mod]
        rw [← digits, List.head?_append]
        cases first : (Nat.toDigits 10 (n / 10)).head? with
        | none => exact absurd (List.head?_eq_none_iff.mp first) Nat.toDigits_ne_nil
        | some c =>
            rw [first] at front
            exact front

theorem isDigit_toDigits (n : Nat) : ∀ c, c ∈ Nat.toDigits 10 n → c.isDigit = true :=
  fun _ member => Nat.isDigit_of_mem_toDigits (by decide) (by decide) member

theorem isUnsigned_toDigits (n : Nat) : isUnsigned (Nat.toDigits 10 n) = true := by
  by_cases positive : 0 < n
  · have leading := head?_toDigits positive
    have digits := isDigit_toDigits n
    cases spelled : Nat.toDigits 10 n with
    | nil => exact absurd spelled Nat.toDigits_ne_nil
    | cons c rest =>
        rw [spelled] at leading digits
        obtain ⟨first, later⟩ := List.forall_mem_cons.mp digits
        have all : rest.dropWhile Char.isDigit = [] := by
          have none : (rest ++ []).dropWhile Char.isDigit = [] :=
            List.dropWhile_append_of_pos later
          rwa [List.append_nil] at none
        rw [isUnsigned, first, all]
        · rfl
        · rintro rfl
          exact leading rfl
  · rw [Nat.eq_zero_of_not_pos positive]
    decide

theorem ofWord_toDigits (n : Nat) : ofWord (Nat.toDigits 10 n) = .number (Nat.toDigits 10 n) := by
  have unsigned := isUnsigned_toDigits n
  have digits := isDigit_toDigits n
  cases spelled : Nat.toDigits 10 n with
  | nil => exact absurd spelled Nat.toDigits_ne_nil
  | cons c rest =>
      rw [spelled] at unsigned digits
      have first := digits c List.mem_cons_self
      have number : isNumber (c :: rest) = true := by
        rw [isNumber]
        · exact unsigned
        · rintro rest same
          cases same
          contradiction
      have other : ∀ d word, d.isDigit = false → c :: rest ≠ d :: word := by
        intro d word letter same
        cases same
        rw [first] at letter
        contradiction
      have notNull : c :: rest ≠ "null".toList := other 'n' "ull".toList rfl
      have notTrue : c :: rest ≠ "true".toList := other 't' "rue".toList rfl
      have notFalse : c :: rest ≠ "false".toList := other 'f' "alse".toList rfl
      rw [ofWord, if_neg notNull, if_neg notTrue, if_neg notFalse, if_pos number]

end Token

/-- Numbers, strings and keys are spelled as this library spells them, and nothing is missing. -/
inductive Written : Json → Prop
  | null : Written .null
  | bool (value : Bool) : Written (.bool value)
  | number (n : Nat) : Written (.ofNat n)
  | string (s : Text) : Written (.ofText s)
  | array {elements : List Json} (each : ∀ value, value ∈ elements → Written value) :
      Written (.array elements)
  | object {members : List (Text × Json)}
      (keys : ∀ m, m ∈ members → ∃ s, m.1 = Quoted.encode s)
      (each : ∀ m, m ∈ members → Written m.2) : Written (.object members)

def Token.Apart (rest : Text) : Prop :=
  ∀ c, rest.head? = some c → Token.isWordChar c = false

theorem Token.apart_cons {c : Char} (rest : Text) (mark : Token.isWordChar c = false) :
    Token.Apart (c :: rest) := by
  intro d starts
  cases starts
  exact mark

namespace Document

open Token Progress

variable {rest : Text} {value : Json} {state next : Progress} {token : Token}
  {tokens : List Token} {stack : List Frame}

theorem ofTokens_cons (step : state.step? token = some next) :
    ofTokens state (token :: tokens) = ofTokens next tokens := by
  rw [ofTokens, step]
  rintro value rfl
  contradiction

theorem ofTokens_beforeFirst (opens : tokens.head? ≠ some .closeArray) :
    ofTokens (.beforeFirst stack) tokens = ofTokens (.beforeValue (.array [] :: stack)) tokens := by
  cases tokens with
  | nil => rfl
  | cons token tokens =>
      have same : step? (.beforeFirst stack) token =
          step? (.beforeValue (.array [] :: stack)) token := by
        rw [step?, step?]
        rintro rfl
        exact opens rfl
      rw [ofTokens, ofTokens, same]
      rfl
      · exact nofun
      · exact nofun

/-- Reading the text of the value comes to the value, whatever containers are open and whatever
follows. -/
def Reads (value : Json) : Prop :=
  ∀ stack rest, Apart rest →
    ofTokens (.beforeValue stack) (row (value.render ++ rest)) =
      ofTokens (.afterValue value stack) (row rest)

theorem ofTokens_elements {first : Json} {elements before : List Json}
    (each : ∀ value, value ∈ first :: elements → Reads value) :
    ofTokens (.beforeValue (.array before :: stack))
        (row (renderElements (first :: elements) ++ ']' :: rest)) =
      ofTokens (.afterValue (.array (before.reverse ++ first :: elements)) stack) (row rest) := by
  induction elements generalizing first before with
  | nil =>
      have last := each first List.mem_cons_self (.array before :: stack) (']' :: rest)
        (apart_cons _ rfl)
      rw [renderElements, last, row_punctuation rfl rfl, ofTokens_cons rfl, List.reverse_cons]
  | cons second elements ih =>
      have front := each first List.mem_cons_self (.array before :: stack)
        (',' :: (renderElements (second :: elements) ++ ']' :: rest)) (apart_cons _ rfl)
      have behind := @ih second (first :: before)
        fun value member => each value (List.mem_cons_of_mem _ member)
      rw [renderElements, List.append_assoc, List.cons_append, front, row_punctuation rfl rfl,
        ofTokens_cons rfl, behind, List.reverse_cons, List.append_assoc]
      rfl

theorem ofTokens_key (before : List (Text × Json)) (s rest : Text) (stack : List Frame) :
    ofTokens (.beforeKey before stack) (row ('"' :: (Quoted.encode s ++ '"' :: ':' :: rest))) =
      ofTokens (.beforeValue (.object before (Quoted.encode s) :: stack)) (row rest) := by
  have key : step? (.beforeKey before stack) (.string (Quoted.encode s)) =
      some (.afterKey before (Quoted.encode s) stack) := by
    cases before <;> rfl
  rw [row_quoted, ofTokens_cons key, row_punctuation rfl rfl, ofTokens_cons rfl]

theorem ofTokens_members {first : Text × Json} {members before : List (Text × Json)}
    (keys : ∀ m, m ∈ first :: members → ∃ s, m.1 = Quoted.encode s)
    (each : ∀ m, m ∈ first :: members → Reads m.2) :
    ofTokens (.beforeKey before stack)
        (row (renderMembers (first :: members) ++ '}' :: rest)) =
      ofTokens (.afterValue (.object (before.reverse ++ first :: members)) stack) (row rest) := by
  induction members generalizing first before with
  | nil =>
      obtain ⟨key, value⟩ := first
      obtain ⟨s, rfl⟩ := keys _ List.mem_cons_self
      have spelled : renderMembers [(Quoted.encode s, value)] ++ '}' :: rest =
          '"' :: (Quoted.encode s ++ '"' :: ':' :: (value.render ++ '}' :: rest)) := by
        simp [renderMembers]
      have last := each _ List.mem_cons_self (.object before (Quoted.encode s) :: stack)
        ('}' :: rest) (apart_cons _ rfl)
      rw [spelled, ofTokens_key, last, row_punctuation rfl rfl, ofTokens_cons rfl,
        List.reverse_cons]
  | cons second members ih =>
      obtain ⟨key, value⟩ := first
      obtain ⟨s, rfl⟩ := keys _ List.mem_cons_self
      have spelled : renderMembers ((Quoted.encode s, value) :: second :: members) ++ '}' :: rest =
          '"' :: (Quoted.encode s ++ '"' :: ':' :: (value.render ++
            ',' :: (renderMembers (second :: members) ++ '}' :: rest))) := by
        simp [renderMembers]
      have front := each _ List.mem_cons_self (.object before (Quoted.encode s) :: stack)
        (',' :: (renderMembers (second :: members) ++ '}' :: rest)) (apart_cons _ rfl)
      have behind := @ih second ((Quoted.encode s, value) :: before)
        (fun m member => keys m (List.mem_cons_of_mem _ member))
        fun m member => each m (List.mem_cons_of_mem _ member)
      rw [spelled, ofTokens_key, front, row_punctuation rfl rfl, ofTokens_cons rfl, behind,
        List.reverse_cons, List.append_assoc]
      rfl

theorem reads_word {word : Text} (nonempty : word ≠ [])
    (wordChars : word.all isWordChar = true) (spelled : value.render = word)
    (ends : ∀ stack, step? (.beforeValue stack) (ofWord word) = some (.afterValue value stack)) :
    Reads value := by
  intro stack rest apart
  rw [spelled, row_word nonempty wordChars apart, ofTokens_cons (ends stack)]

end Document

section Written

open Document Token

variable {value : Json} {rest : Text}

theorem isWordChar_toDigits (n : Nat) : (Nat.toDigits 10 n).all isWordChar = true := by
  rw [List.all_eq_true]
  intro c member
  simp [isWordChar, Char.isAlphanum, isDigit_toDigits n c member]

theorem render_ofText (s rest : Text) :
    (ofText s).render ++ rest = '"' :: (Quoted.encode s ++ '"' :: rest) := by
  change '"' :: (Quoted.encode s ++ ['"'] ++ rest) = _
  rw [List.append_assoc]
  rfl

theorem render_array (elements : List Json) (rest : Text) :
    (array elements).render ++ rest = '[' :: (renderElements elements ++ ']' :: rest) := by
  change '[' :: (renderElements elements ++ [']'] ++ rest) = _
  rw [List.append_assoc]
  rfl

theorem render_object (members : List (Text × Json)) (rest : Text) :
    (object members).render ++ rest = '{' :: (renderMembers members ++ '}' :: rest) := by
  change '{' :: (renderMembers members ++ ['}'] ++ rest) = _
  rw [List.append_assoc]
  rfl

theorem head?_row_render (written : Written value) (apart : Apart rest) :
    (row (value.render ++ rest)).head? ≠ some .closeArray := by
  have word : ∀ word : Text, word ≠ [] → word.all isWordChar = true →
      ofWord word ≠ .closeArray → (row (word ++ rest)).head? ≠ some .closeArray := by
    intro word nonempty wordChars opens same
    rw [row_word nonempty wordChars apart] at same
    exact opens (Option.some.inj same)
  cases written with
  | null => exact word "null".toList (by decide) (by decide) (by decide)
  | bool value =>
      cases value with
      | true => exact word "true".toList (by decide) (by decide) (by decide)
      | false => exact word "false".toList (by decide) (by decide) (by decide)
  | number n =>
      apply word (Nat.toDigits 10 n) Nat.toDigits_ne_nil (isWordChar_toDigits n)
      rw [ofWord_toDigits]
      exact nofun
  | string s =>
      rw [render_ofText, row_quoted]
      exact nofun
  | array each =>
      rw [render_array, row_punctuation rfl rfl]
      exact nofun
  | object keys each =>
      rw [render_object, row_punctuation rfl rfl]
      exact nofun

theorem Written.reads (written : Written value) : Reads value := by
  induction written with
  | null => exact reads_word (by decide) (by decide) rfl fun _ => rfl
  | bool value =>
      cases value with
      | true => exact reads_word (by decide) (by decide) rfl fun _ => rfl
      | false => exact reads_word (by decide) (by decide) rfl fun _ => rfl
  | number n =>
      apply reads_word Nat.toDigits_ne_nil (isWordChar_toDigits n) rfl
      intro stack
      rw [ofWord_toDigits]
      rfl
  | string s =>
      intro stack rest _
      rw [render_ofText, row_quoted, ofTokens_cons rfl]
      rfl
  | @array elements each reads =>
      intro stack rest _
      rw [render_array, row_punctuation rfl rfl, ofTokens_cons rfl]
      cases elements with
      | nil =>
          have closing : renderElements [] ++ ']' :: rest = ']' :: rest := rfl
          rw [closing, row_punctuation rfl rfl, ofTokens_cons rfl]
      | cons first elements =>
          have opens : (row (renderElements (first :: elements) ++ ']' :: rest)).head? ≠
              some .closeArray := by
            cases elements with
            | nil =>
                exact head?_row_render (each first List.mem_cons_self) (apart_cons _ rfl)
            | cons second elements =>
                rw [renderElements, List.append_assoc]
                exact head?_row_render (each first List.mem_cons_self) (apart_cons _ rfl)
          rw [ofTokens_beforeFirst opens, ofTokens_elements reads]
          rfl
  | @object members keys each reads =>
      intro stack rest _
      rw [render_object, row_punctuation rfl rfl, ofTokens_cons rfl]
      cases members with
      | nil =>
          have closing : renderMembers [] ++ '}' :: rest = '}' :: rest := rfl
          rw [closing, row_punctuation rfl rfl, ofTokens_cons rfl]
      | cons first members =>
          rw [ofTokens_members keys reads]
          rfl

theorem ofText_render (written : Written value) :
    Document.ofText value.render = ⟨value, true⟩ := by
  have reads := written.reads [] [] nofun
  rw [List.append_nil] at reads
  rw [Document.ofText, reads, row]
  rfl

end Written

end SignalBox.Json
