/-! Text as a list of characters. Positions in a text are byte offsets in its UTF-8 form, so the
position of a part is the byte length of what stands before it. -/

namespace SignalBox

abbrev Text := List Char

namespace Text

def byteLength (s : Text) : Nat :=
  s.foldr (fun c n => c.utf8Size + n) 0

@[simp] theorem byteLength_nil : byteLength [] = 0 := rfl

@[simp] theorem byteLength_cons (c : Char) (s : Text) :
    byteLength (c :: s) = c.utf8Size + byteLength s := rfl

@[simp] theorem byteLength_append (s t : Text) :
    byteLength (s ++ t) = byteLength s + byteLength t := by
  induction s with
  | nil => simp
  | cons c s ih => rw [List.cons_append, byteLength_cons, byteLength_cons, ih, Nat.add_assoc]

theorem length_le_byteLength (s : Text) : s.length ≤ byteLength s := by
  induction s with
  | nil => exact Nat.le_refl 0
  | cons c s ih =>
      simp only [List.length_cons, byteLength_cons]
      have := c.utf8Size_pos
      omega

theorem byteLength_eq_zero_iff {s : Text} : byteLength s = 0 ↔ s = [] := by
  constructor
  · intro h
    exact List.eq_nil_of_length_eq_zero
      (Nat.le_zero.mp (h ▸ length_le_byteLength s))
  · rintro rfl
    rfl

theorem byteLength_pos {s : Text} (h : s ≠ []) : 0 < byteLength s :=
  Nat.pos_of_ne_zero (mt byteLength_eq_zero_iff.mp h)

/-! The characters with the Unicode property White_Space. -/

def isWhite (c : Char) : Bool :=
  (0x09 ≤ c.val && c.val ≤ 0x0D) || c.val == 0x20 || c.val == 0x85 || c.val == 0xA0 ||
    c.val == 0x1680 || (0x2000 ≤ c.val && c.val ≤ 0x200A) || c.val == 0x2028 ||
    c.val == 0x2029 || c.val == 0x202F || c.val == 0x205F || c.val == 0x3000

def isBlank (s : Text) : Bool :=
  s.all isWhite

@[simp] theorem isBlank_nil : isBlank [] = true := rfl

@[simp] theorem isBlank_cons (c : Char) (s : Text) :
    isBlank (c :: s) = (isWhite c && isBlank s) := rfl

@[simp] theorem isBlank_append (s t : Text) :
    isBlank (s ++ t) = (isBlank s && isBlank t) := List.all_append

def trimStart (s : Text) : Text :=
  s.dropWhile isWhite

def trimEnd (s : Text) : Text :=
  (trimStart s.reverse).reverse

def trim (s : Text) : Text :=
  trimEnd (trimStart s)

theorem trimStart_eq_nil_iff {s : Text} : trimStart s = [] ↔ isBlank s = true := by
  induction s with
  | nil => simp [trimStart]
  | cons c s ih =>
      simp only [trimStart, isBlank_cons, List.dropWhile_cons] at ih ⊢
      cases isWhite c with
      | true => simpa using ih
      | false => simp

theorem isBlank_trimStart (s : Text) : isBlank (trimStart s) = isBlank s := by
  induction s with
  | nil => rfl
  | cons c s ih =>
      simp only [trimStart, isBlank_cons, List.dropWhile_cons] at ih ⊢
      cases h : isWhite c with
      | true => simpa using ih
      | false => simp [h]

theorem trim_eq_nil_iff {s : Text} : trim s = [] ↔ isBlank s = true := by
  rw [trim, trimEnd, List.reverse_eq_nil_iff, trimStart_eq_nil_iff, isBlank, List.all_reverse,
    ← isBlank, isBlank_trimStart]

def lower (s : Text) : Text :=
  s.map Char.toLower

end Text

end SignalBox
