/-!
# Lengths and cuts in UTF-8 bytes

Offsets, columns and lengths of a source text count bytes of its UTF-8 form, while the text itself is a
list of characters. `utf8Length` measures a list of characters, and `sliceBytes` cuts a piece out by
two byte offsets; it gives nothing when an offset lies past the end or inside a character.
-/

namespace RoseLang.Text

/-- The number of bytes that the characters take in UTF-8. -/
def utf8Length : List Char → Nat
  | [] => 0
  | c :: cs => c.utf8Size + utf8Length cs

@[simp] theorem utf8Length_nil : utf8Length [] = 0 := rfl

@[simp] theorem utf8Length_cons (c : Char) (cs : List Char) :
    utf8Length (c :: cs) = c.utf8Size + utf8Length cs := rfl

@[simp] theorem utf8Length_append (cs ds : List Char) :
    utf8Length (cs ++ ds) = utf8Length cs + utf8Length ds := by
  induction cs with
  | nil => simp
  | cons c cs ih => simp [ih, Nat.add_assoc]

/-- What is left after `n` bytes, if a character ends there. -/
def dropBytes : Nat → List Char → Option (List Char)
  | 0, cs => some cs
  | _ + 1, [] => none
  | n + 1, c :: cs => if c.utf8Size ≤ n + 1 then dropBytes (n + 1 - c.utf8Size) cs else none

/-- The first `n` bytes, if a character ends there. -/
def takeBytes : Nat → List Char → Option (List Char)
  | 0, _ => some []
  | _ + 1, [] => none
  | n + 1, c :: cs =>
    if c.utf8Size ≤ n + 1 then (takeBytes (n + 1 - c.utf8Size) cs).map (c :: ·) else none

/-- The text between two byte offsets. -/
def sliceBytes (start stop : Nat) (cs : List Char) : Option (List Char) :=
  if start ≤ stop then (dropBytes start cs).bind (takeBytes (stop - start)) else none

theorem dropBytes_append (cs ds : List Char) : dropBytes (utf8Length cs) (cs ++ ds) = some ds := by
  induction cs with
  | nil => simp [dropBytes]
  | cons c cs ih =>
    obtain ⟨n, hn⟩ : ∃ n, utf8Length (c :: cs) = n + 1 :=
      ⟨utf8Length (c :: cs) - 1, by have := c.utf8Size_pos; simp; omega⟩
    rw [hn, List.cons_append, dropBytes, ← hn, utf8Length_cons, if_pos (Nat.le_add_right _ _),
      Nat.add_sub_cancel_left, ih]

theorem takeBytes_append (cs ds : List Char) : takeBytes (utf8Length cs) (cs ++ ds) = some cs := by
  induction cs with
  | nil => simp [takeBytes]
  | cons c cs ih =>
    obtain ⟨n, hn⟩ : ∃ n, utf8Length (c :: cs) = n + 1 :=
      ⟨utf8Length (c :: cs) - 1, by have := c.utf8Size_pos; simp; omega⟩
    rw [hn, List.cons_append, takeBytes, ← hn, utf8Length_cons, if_pos (Nat.le_add_right _ _),
      Nat.add_sub_cancel_left, ih, Option.map_some]

theorem sliceBytes_append (cs ds es : List Char) :
    sliceBytes (utf8Length cs) (utf8Length cs + utf8Length ds) (cs ++ ds ++ es) = some ds := by
  rw [sliceBytes, if_pos (Nat.le_add_right _ _), List.append_assoc, dropBytes_append,
    Option.bind_some, Nat.add_sub_cancel_left, takeBytes_append]

end RoseLang.Text
