import RoseLang.Proofs.Token.Cuts
import RoseLang.Proofs.Token.Scanning

/-!
# Tokens written down again

Written one after the other with a space after each, the tokens of a text without lexical faults are read
as the same tokens: none of them runs into the next one, none falls apart without what followed it, and
line ends are terminators where they were.
-/

namespace RoseLang

namespace Token

/-- Kind and text, which is all of a token but its place. -/
def content (t : Token) : Kind × String := (t.kind, t.text)

/-- The token as it is written down again: its text, or else the spelling of its kind, and a space. Nothing is
written for the end of the input. -/
def rendered (t : Token) : String :=
  if t.kind = .eof ∨ t.kind = .semi ∧ t.text = "" then ""
  else (if t.text = "" then t.kind.spelling else t.text) ++ " "

end Token

/-- All tokens as they are written down again. -/
def rendering (ts : List Token) : String := (ts.map Token.rendered).foldr (· ++ ·) ""

theorem toList_rendering_cons (t : Token) (ts : List Token) :
    (rendering (t :: ts)).toList = t.rendered.toList ++ (rendering ts).toList :=
  String.toList_append

theorem Scans.tokenize {base : Pos} {offset offset' : Nat} {cs tail : List Char} {pending pending' : Bool}
    {ts : List Token} (h : Scans base offset cs tail pending ts offset' pending') :
    (Lexer.clean base offset (cs ++ tail) pending).tokenize =
      (ts ++ (Lexer.clean base offset' tail pending').tokenize.1,
        (Lexer.clean base offset' tail pending').tokenize.2) := by
  rw [Scans] at h
  have hclean : ∀ offset rest pending, (Lexer.clean base offset rest pending).errors = [] := fun _ _ _ => rfl
  rw [Lexer.tokenize, Lexer.tokenize, h]
  simp [hclean, Function.comp_def]

namespace Lexer

variable {l l' : Lexer} {cs after : List Char} {t : Token}

theorem ReadsToken.rendered (h : ReadsToken l cs after t l') : t.rendered.toList = cs ++ [' '] := by
  have hspace : (" " : String).toList = [' '] := rfl
  rw [Token.rendered]
  cases hkeeps : t.kind.keepsText with
  | true =>
    have htext : t.text = String.ofList cs := by rw [h.text, if_pos hkeeps]
    have hne : t.text ≠ "" := by
      rw [htext]
      exact fun hempty => h.ne_nil (String.ofList_eq_empty_iff.mp hempty)
    rw [if_neg (by simp [h.kind_ne, hne]), if_neg hne, String.toList_append, htext, String.toList_ofList, hspace]
  | false =>
    have htext : t.text = "" := by rw [h.text, hkeeps]; rfl
    have hsemi : t.kind ≠ .semi := by
      intro hsemi
      rw [hsemi] at hkeeps
      cases hkeeps
    have hspelled : cs = t.kind.spelling.toList := by
      rcases h.spelled with hword | hspelled
      · rw [Kind.keepsText, Bool.or_eq_false_iff] at hkeeps
        rw [Kind.isWordOrLiteral, hkeeps.1] at hword
        cases hword
      · exact hspelled
    rw [if_neg (by simp [h.kind_ne, hsemi]), if_pos htext, String.toList_append, ← hspelled, hspace]

/-- A token without a fault is read again when it stands before a space. -/
theorem ReadsToken.scans (h : ReadsToken l cs after t l') (hclean : l.tokenize.2 = []) (base : Pos) (offset : Nat)
    (tail : List Char) :
    ∃ t' offset', Scans base offset (cs ++ [' ']) tail l.pending [t'] offset' l'.pending ∧ t'.content = t.content := by
  obtain ⟨-, c, more, rfl, hpiece⟩ := h.faultless hclean
  have hspaced : Piece.first c (more ++ ' ' :: tail) = .token t.kind more.length [] :=
    Piece.first_append (delimits_cons (.inl rfl)) (Piece.first_of_append hpiece)
  obtain ⟨t', offset', hscans, hkind, htext⟩ := scans_token base offset l.pending h.kind_ne hspaced
  rw [h.pending]
  refine ⟨t', offset' + 1, hscans.append (scans_space base offset' tail _), ?_⟩
  rw [Token.content, Token.content, hkind, htext, h.text]

/-- A line end that was a terminator is one again. -/
theorem scans_break (base : Pos) (offset : Nat) (tail : List Char) :
    ∃ t' offset', Scans base offset ['\n', ' '] tail true [t'] offset' false ∧ t'.content = (.semi, "\n") := by
  have hpiece : Piece.first '\n' (' ' :: tail) = .gap 0 true none := (Piece.IsFirst.line rfl).first_eq
  let t : Token := ⟨.semi, ⟨base.advance offset, base.advance (offset + 1)⟩, "\n"⟩
  have hnext : (clean base offset ('\n' :: ' ' :: tail) true).next = (t, clean base (offset + 1) (' ' :: tail) false) :=
    next_of_break rfl hpiece rfl
  have hsemi : Kind.semi ≠ .eof := by decide
  have hline : Scans base offset ['\n'] (' ' :: tail) true [t] (offset + 1) false :=
    lexemes_of_next rfl hnext hsemi
  exact ⟨t, _, hline.append (scans_space base (offset + 1) tail false), rfl⟩

theorem toList_rendered_break (span : Span) : (Token.mk .semi span "\n").rendered.toList = ['\n', ' '] := by
  have hchars : ("\n" : String).toList ++ (" " : String).toList = ['\n', ' '] := by decide
  rw [Token.rendered, if_neg (by simp), if_neg (by simp), String.toList_append]
  exact hchars

/-- At the end of the text there is nothing to write. -/
theorem rendering_of_nil {l : Lexer} (hrest : l.rest = []) : rendering l.tokenize.1 = "" := by
  rw [tokenize_of_nil hrest]
  cases l.pending <;> rfl

theorem content_of_nil {l l' : Lexer} (hrest : l.rest = []) (hrest' : l'.rest = []) (hpending : l'.pending = l.pending) :
    l'.tokenize.1.map Token.content = l.tokenize.1.map Token.content := by
  rw [tokenize_of_nil hrest, tokenize_of_nil hrest', hpending]
  cases l.pending <;> rfl

theorem tokenize_rendering (l : Lexer) (hclean : l.tokenize.2 = []) (base : Pos) (offset : Nat) :
    (clean base offset (rendering l.tokenize.1).toList l.pending).tokenize.2 = [] ∧
      (clean base offset (rendering l.tokenize.1).toList l.pending).tokenize.1.map Token.content =
        l.tokenize.1.map Token.content := by
  induction l using tokenize_induction generalizing offset with
  | nil l hrest =>
    rw [rendering_of_nil hrest]
    exact ⟨congrArg Prod.snd (tokenize_of_nil rfl), content_of_nil hrest rfl rfl⟩
  | gap l cs after fault l' h ih =>
    rw [h.tokenize] at hclean ⊢
    cases hbreak : l.pending && cs.contains '\n' with
    | false =>
      have hpending : l'.pending = l.pending := by
        rw [h.pending]
        cases hp : l.pending with
        | false => rfl
        | true => simpa [hp] using hbreak
      rw [← hpending]
      exact ih hclean offset
    | true =>
      obtain ⟨hp, hline⟩ := Bool.and_eq_true_iff.mp hbreak
      have hpending : l'.pending = false := by rw [h.pending, hline, Bool.not_true, Bool.and_false]
      obtain ⟨t', offset', hscans, ht'⟩ := scans_break base offset (rendering l'.tokenize.1).toList
      obtain ⟨herrors, htokens⟩ := ih hclean offset'
      rw [hpending] at herrors htokens
      rw [if_pos rfl, hp, List.singleton_append]
      dsimp only
      rw [toList_rendering_cons, toList_rendered_break, hscans.tokenize]
      refine ⟨herrors, ?_⟩
      rw [List.singleton_append, List.map_cons, htokens, ht']
      rfl
  | token l cs after t l' h ih =>
    obtain ⟨t', offset', hscans, ht'⟩ := h.scans hclean base offset (rendering l'.tokenize.1).toList
    rw [h.tokenize] at hclean ⊢
    obtain ⟨herrors, htokens⟩ := ih hclean offset'
    rw [toList_rendering_cons, h.rendered, hscans.tokenize]
    refine ⟨herrors, ?_⟩
    rw [List.singleton_append, List.map_cons, htokens, ht', List.map_cons]

/-- The tokens of a text without lexical faults are read again from what is written for them, whatever the bases
are. -/
theorem relex (source : String) (base base' : Pos) (h : (ofText source base).tokenize.2 = []) :
    (ofText (rendering (ofText source base).tokenize.1) base').tokenize.2 = [] ∧
      (ofText (rendering (ofText source base).tokenize.1) base').tokenize.1.map Token.content =
        (ofText source base).tokenize.1.map Token.content :=
  tokenize_rendering (ofText source base) h base' 0

/-- Operators without blanks between them, a raw string over two lines, and a number that ends in an underscore. -/
theorem relex_adjacent :
    (ofText "a<<-1_&^=\x60p\nq\x60.5e3 // end\n" ⟨1⟩).tokenize.2 = [] ∧
      (ofText (rendering (ofText "a<<-1_&^=\x60p\nq\x60.5e3 // end\n" ⟨1⟩).tokenize.1) ⟨9⟩).tokenize.1.map Token.content =
        (ofText "a<<-1_&^=\x60p\nq\x60.5e3 // end\n" ⟨1⟩).tokenize.1.map Token.content := by
  have hclean : (ofText "a<<-1_&^=\x60p\nq\x60.5e3 // end\n" ⟨1⟩).tokenize.2 = [] := by decide +kernel
  exact ⟨hclean, (relex _ ⟨1⟩ ⟨9⟩ hclean).2⟩

end Lexer

end RoseLang
