import Mathlib.Data.List.Destutter
import RoseLang.Proofs.Run
import RoseLang.Proofs.Token.Cover

/-!
# Tokens one by one

Tokens and faults can be asked for one after the other, in any order. With those that are left they are the tokens
and faults of the whole text, and what is found on the way to a token lies behind the token before it.
-/

namespace RoseLang

open Text

/-! ### The end token once more -/

/-- The second token is not the end token once more. -/
def Token.GoesOn (t u : Token) : Prop := ¬ (t.kind = .eof ∧ u = t)

instance : DecidableRel Token.GoesOn := fun t u => inferInstanceAs (Decidable (¬ (t.kind = .eof ∧ u = t)))

section
variable {t : Token} {ts : List Token}

theorem Token.goesOn_of_ne_eof (h : t.kind ≠ .eof) (u : Token) : t.GoesOn u := fun hsame => h hsame.1

theorem EndsOnce.destutter_eq (h : EndsOnce ts) : ts.destutter Token.GoesOn = ts := by
  obtain ⟨us, t, rfl, -, hus⟩ := h
  apply List.destutter_of_isChain
  induction us with
  | nil => exact List.isChain_singleton t
  | cons u us ih =>
    rw [List.forall_mem_cons] at hus
    rw [List.cons_append, List.isChain_cons]
    exact ⟨fun v _ => Token.goesOn_of_ne_eof hus.1 v, ih hus.2⟩

theorem destutter_cons_of_ne_eof (h : t.kind ≠ .eof) (ts : List Token) :
    (t :: ts).destutter Token.GoesOn = t :: ts.destutter Token.GoesOn := by
  cases ts with
  | nil => rw [List.destutter_singleton, List.destutter_nil]
  | cons u us => rw [List.destutter_cons_cons, if_pos (Token.goesOn_of_ne_eof h u), List.destutter_cons']

theorem destutter_cons_of_eof (h : t.kind = .eof) (hts : ts.destutter Token.GoesOn = [t]) :
    (t :: ts).destutter Token.GoesOn = [t] := by
  cases ts with
  | nil => simp at hts
  | cons u us =>
    rw [List.destutter_cons'] at hts
    have hmem := List.mem_destutter' us Token.GoesOn u
    rw [hts, List.mem_singleton] at hmem
    subst hmem
    have hsame : ¬ u.GoesOn u := fun hgoesOn => hgoesOn ⟨h, rfl⟩
    rw [List.destutter_cons_cons, if_neg hsame, hts]

end

namespace Lexer

/-! ### One token -/

/-- After the end token comes the end token. -/
theorem next_next_of_eof {l : Lexer} (h : l.next.1.kind = .eof) : l.next.2.next = l.next := by
  induction l using next_induction with
  | nil l hrest =>
    rw [next_of_nil hrest] at h ⊢
    cases hpending : l.pending with
    | true => simp [hpending] at h
    | false =>
      rw [next_of_nil (by exact hrest)]
      rfl
  | gap l cs after fault l' hgap hnext ih =>
    rw [hnext] at h ⊢
    split at h
    · cases h
    · next hbreak =>
      rw [if_neg hbreak]
      exact ih h
  | token l cs after t l' htoken hnext ih =>
    rw [hnext] at h
    exact absurd h htoken.kind_ne

theorem tokenize_next_of_eof {l : Lexer} (h : l.next.1.kind = .eof) : l.next.2.tokenize = l.tokenize :=
  tokenize_congr (next_next_of_eof h)

theorem faults_next (l : Lexer) : l.next.2.tokenize.2 = l.tokenize.2 := by
  by_cases heof : l.next.1.kind = .eof
  · rw [tokenize_next_of_eof heof]
  · rw [tokenize_of_ne_eof heof]

theorem tokenize_takeErrors (l : Lexer) :
    l.takeErrors.2.tokenize.1 = l.tokenize.1 ∧ l.takeErrors.1 ++ l.takeErrors.2.tokenize.2 = l.tokenize.2 := by
  have hlexemes : l.takeErrors.2.lexemes = l.lexemes := lexemes_congr rfl
  rw [tokenize, tokenize, hlexemes]
  exact ⟨rfl, rfl⟩

variable {base : Pos} {source before : List Char} {l : Lexer}

theorem At.takeErrors (h : l.At base source before) : l.takeErrors.2.At base source before :=
  ⟨h.base_eq, h.source_eq, h.offset_eq, h.fits⟩

theorem At.next (h : l.At base source before) : ∃ cs, l.next.2.At base source (before ++ cs) := by
  obtain ⟨cs, hrest, hoffset⟩ := read_next l
  refine ⟨cs, (base_next l).trans h.base_eq, ?_, ?_, h.fits⟩
  · rw [h.source_eq, hrest, List.append_assoc]
  · rw [hoffset, h.offset_eq, utf8Length_append]

/-- The faults found on the way to the next token lie between. -/
theorem At.inside_next (h : l.At base source before) :
    l.pos.index ≤ l.next.2.pos.index ∧
      ∀ e ∈ l.next.2.errors, e ∈ l.errors ∨ e.span.Inside l.pos.index l.next.2.pos.index := by
  induction l using next_induction generalizing before with
  | nil l hrest =>
    rw [next_of_nil hrest]
    exact ⟨Nat.le_refl _, fun e he => .inl he⟩
  | gap l cs after fault l' hgap hnext ih =>
    have hle := Nat.le_of_lt (h.index_lt hgap.toAdvances)
    have hinside := hgap.inside h
    rw [hnext]
    split
    · exact ⟨hle, hinside⟩
    · obtain ⟨hlater, herrors⟩ := ih (h.advances hgap.toAdvances)
      refine ⟨Nat.le_trans hle hlater, fun e he => ?_⟩
      rcases herrors e he with he | hin
      · exact (hinside e he).imp_right fun hin => hin.mono (Nat.le_refl _) hlater
      · exact .inr (hin.mono hle (Nat.le_refl _))
  | token l cs after t l' htoken hnext ih =>
    rw [hnext]
    exact ⟨Nat.le_of_lt (h.index_lt htoken.toAdvances), htoken.inside h⟩

/-- The faults found on the way to the next token come after those kept before. -/
theorem At.recorded (h : l.At base source before) :
    ∃ es, l.next.2.errors = l.errors ++ es ∧ ∀ e ∈ es, e.span.Inside l.pos.index l.next.1.span.stop.index := by
  obtain ⟨-, herrors⟩ := h.takeErrors.inside_next
  rw [next_eq_takeErrors, stop_next]
  refine ⟨_, rfl, fun e he => ?_⟩
  exact (herrors e he).resolve_left List.not_mem_nil

/-! ### Calls -/

inductive Call where
  | next
  | takeErrors
  deriving DecidableEq, Repr

inductive Answer where
  | token (t : Token)
  | errors (es : List LexError)
  deriving DecidableEq, Repr

namespace Answer

def tokens : Answer → List Token
  | token t => [t]
  | errors _ => []

def faults : Answer → List LexError
  | token _ => []
  | errors es => es

end Answer

def call (l : Lexer) : Call → Answer × Lexer
  | .next => (.token l.next.1, l.next.2)
  | .takeErrors => (.errors l.takeErrors.1, l.takeErrors.2)

theorem tokens_calls (l : Lexer) (calls : List Call) :
    ((runAll call l calls).1.flatMap Answer.tokens ++ (runAll call l calls).2.tokenize.1).destutter Token.GoesOn =
      l.tokenize.1 := by
  induction calls generalizing l with
  | nil => exact l.endsOnce_lexemes.destutter_eq
  | cons c calls ih =>
    rw [runAll_cons, List.flatMap_cons, List.append_assoc]
    cases c with
    | takeErrors => exact (ih _).trans (tokenize_takeErrors l).1
    | next =>
      have hleft := ih l.next.2
      by_cases heof : l.next.1.kind = .eof
      · rw [tokenize_next_of_eof heof, tokenize_of_eof heof] at hleft
        rw [tokenize_of_eof heof]
        exact destutter_cons_of_eof heof hleft
      · rw [tokenize_of_ne_eof heof, ← hleft]
        exact destutter_cons_of_ne_eof heof _

theorem faults_calls (l : Lexer) (calls : List Call) :
    (runAll call l calls).1.flatMap Answer.faults ++ (runAll call l calls).2.tokenize.2 = l.tokenize.2 := by
  induction calls generalizing l with
  | nil => rfl
  | cons c calls ih =>
    rw [runAll_cons, List.flatMap_cons, List.append_assoc, ih]
    cases c with
    | takeErrors => exact (tokenize_takeErrors l).2
    | next => exact faults_next l

/-- The lexer stands where the last token ends that it has returned. -/
theorem At.calls (h : l.At base source before) (calls : List Call) :
    ∃ before', (runAll call l calls).2.At base source before' ∧
      (runAll call l calls).2.pos.index =
        (((runAll call l calls).1.flatMap Answer.tokens).map fun t => t.span.stop.index).getLastD l.pos.index := by
  induction calls generalizing l before with
  | nil => exact ⟨before, h, rfl⟩
  | cons c calls ih =>
    rw [runAll_cons, List.flatMap_cons]
    cases c with
    | takeErrors => exact ih h.takeErrors
    | next =>
      obtain ⟨cs, hat⟩ := h.next
      obtain ⟨before', hlast, hindex⟩ := ih hat
      refine ⟨before', hlast, hindex.trans ?_⟩
      rw [← stop_next]
      exact List.getLastD_cons.symm

/-- Whatever is asked for, nothing is lost and nothing comes twice but the end token. The faults found on the way
to a token lie between the end of the token before and its own. -/
theorem tokenize_calls (source : String) (base : Pos) (calls : List Call) :
    let l := ofText source base
    let run := runAll call l calls
    let returned := run.1.flatMap Answer.tokens
    (returned ++ run.2.tokenize.1).destutter Token.GoesOn = l.tokenize.1 ∧
      run.1.flatMap Answer.faults ++ run.2.tokenize.2 = l.tokenize.2 ∧
      (base.index + utf8Length source.toList ≤ Pos.last.index →
        ∃ es, run.2.next.2.errors = run.2.errors ++ es ∧
          ∀ e ∈ es, e.span.Inside ((returned.map fun t => t.span.stop.index).getLastD base.index)
            run.2.next.1.span.stop.index) := by
  refine ⟨tokens_calls _ calls, faults_calls _ calls, fun hfits => ?_⟩
  have hstart := at_ofText hfits
  have hbase : (ofText source base).pos.index = base.index := hstart.index_pos
  obtain ⟨before, hat, hindex⟩ := hstart.calls calls
  rw [hbase] at hindex
  rw [← hindex]
  exact hat.recorded

/-- On the way to an open string there are three faults, and the one that starts last is not the last one found. -/
theorem tokenize_calls_openString :
    let source := "a $ \x22\\q\n"
    let run := runAll call (ofText source ⟨9⟩) [.next, .takeErrors]
    9 + utf8Length source.toList ≤ Pos.last.index ∧
      run.1.flatMap Answer.tokens = [⟨.ident, ⟨⟨9⟩, ⟨10⟩⟩, "a"⟩] ∧
      run.2.next.1 = ⟨.string, ⟨⟨13⟩, ⟨16⟩⟩, "\x22\\q"⟩ ∧
      run.2.next.2.errors.map (fun e => (e.span.start.index, e.span.stop.index)) = [(11, 12), (14, 16), (13, 16)] ∧
      ∃ es, run.2.next.2.errors = run.2.errors ++ es ∧ ∀ e ∈ es, e.span.Inside 10 16 := by
  intro source run
  have hfits : 9 + utf8Length source.toList ≤ Pos.last.index := by decide +kernel
  have hreturned : run.1.flatMap Answer.tokens = [⟨.ident, ⟨⟨9⟩, ⟨10⟩⟩, "a"⟩] := by decide +kernel
  have hnext : run.2.next.1 = ⟨.string, ⟨⟨13⟩, ⟨16⟩⟩, "\x22\\q"⟩ := by decide +kernel
  obtain ⟨es, herrors, hinside⟩ := (tokenize_calls source ⟨9⟩ [.next, .takeErrors]).2.2 hfits
  rw [hreturned, hnext] at hinside
  exact ⟨hfits, hreturned, hnext, by decide +kernel, es, herrors, hinside⟩

end Lexer

end RoseLang
