import RoseLang.Proofs.Parse.Files
import RoseLang.Proofs.Parse.Layout.Stmt
import RoseLang.Proofs.Token.Tokenize

/-!
# Results that differ in positions only

What is made of two states that are alike is alike as well. The errors are sorted by their positions, of which
only the order counts, so that those at the same place of both lists belong together.
-/

namespace RoseLang

section
variable (P : Pos → Pos → Prop)

/-- The same error. A redeclaration may tell another place of the first declaration. -/
structure ParseError.Alike (e e' : ParseError) : Prop where
  pos : P e.pos e'.pos
  kind : e.kind = e'.kind
  message : e.message = e'.message ∨ ∃ (r : Redeclaration) (first first' : Position), e.cause = some r ∧
    e.message = r.message ++ "\n\tprevious declaration at " ++ first.text ∧
    e'.message = r.message ++ "\n\tprevious declaration at " ++ first'.text
  hint : e.hint = e'.hint
  cause : Option.Rel (Redeclaration.Alike P) e.cause e'.cause

/-- The same error at the same place of the same file, which lies elsewhere. -/
structure ParseError.Moved (e e' : ParseError) : Prop where
  position : e.position = e'.position
  pos : P e.pos e'.pos
  kind : e.kind = e'.kind
  message : e.message = e'.message
  hint : e.hint = e'.hint
  cause : Option.Rel (Redeclaration.Alike P) e.cause e'.cause

/-- The same result but for its positions. What errors have in common is up to `E`. -/
structure ParseResult.Alike (E : ParseError → ParseError → Prop) (r r' : ParseResult) : Prop where
  stmts : List.Forall₂ (Stmt.Alike P) r.file.stmts r'.file.stmts
  unresolved : List.Forall₂ (Ident.Alike P) r.file.unresolved r'.file.unresolved
  objects : List.Forall₂ (Object.Alike P) r.objects r'.objects
  scopes : r.scopes = r'.scopes
  errors : List.Forall₂ E r.errors r'.errors

end

/-- Lists in which elements at the same place compare in the same way are sorted in the same way. -/
theorem forall₂_mergeSort {α β : Type} {R : α → β → Prop} {le : α → α → Bool} {le' : β → β → Bool} {as : List α}
    {bs : List β} (h : List.Forall₂ R as bs) (hle : ∀ {a b c d}, R a b → R c d → le a c = le' b d) :
    List.Forall₂ R (as.mergeSort le) (bs.mergeSort le') := by
  obtain ⟨hlength, hzip⟩ := List.forall₂_iff_zip.mp h
  -- both lists are the halves of one list of pairs, which is sorted by either half
  have hleft := List.map_mergeSort (l := as.zip bs) (f := Prod.fst) (s := le) fun _ _ _ _ => rfl
  have hright := List.map_mergeSort (l := as.zip bs) (f := Prod.snd) (s := le') fun x hx y hy => hle (hzip hx) (hzip hy)
  rw [List.map_fst_zip (Nat.le_of_eq hlength)] at hleft
  rw [List.map_snd_zip (Nat.le_of_eq hlength.symm)] at hright
  rw [← hleft, ← hright, List.forall₂_map_left_iff, List.forall₂_map_right_iff, List.forall₂_same]
  exact fun x hx => hzip (List.mem_mergeSort.mp hx)

namespace Parse

variable {P : Pos → Pos → Prop} {file file' : SourceFile}

/-! ### Faults -/

namespace Fault.Alike

variable {fault fault' : Fault}

theorem kind (h : fault.Alike P fault') : fault.kind = fault'.kind := by
  cases h with
  | same | redeclared => rfl

theorem hint (h : fault.Alike P fault') : fault.hint = fault'.hint := by
  cases h with
  | same | redeclared => rfl

theorem cause (h : fault.Alike P fault') : Option.Rel (Redeclaration.Alike P) fault.cause fault'.cause := by
  cases h with
  | same h =>
    rw [h]
    exact .none
  | redeclared h => exact .some h

end Fault.Alike

theorem message_redeclared (file : SourceFile) {r : Redeclaration} (h : 0 < r.previous.index) :
    Fault.message file (.redeclared r) =
      r.message ++ "\n\tprevious declaration at " ++ (file.position r.previous).text := by
  have hprevious : r.previous? = some r.previous := if_pos (decide_eq_true (Nat.ne_of_gt h))
  rw [Fault.message, hprevious]

theorem Finding.Alike.parseError (hP : KeepsOrder P) {f f' : Finding} (h : f.Alike P f') :
    (ParseError.ofFault file f.pos f.fault).Alike P (ParseError.ofFault file' f'.pos f'.fault) := by
  refine ⟨h.pos, h.fault.kind, ?_, h.fault.hint, h.fault.cause⟩
  obtain ⟨pos, fault⟩ := f
  obtain ⟨pos', fault'⟩ := f'
  obtain ⟨hpos, hfault⟩ := h
  cases hfault with
  | @same fault hcause =>
    left
    cases fault with
    | redeclared => cases hcause
    | _ => rfl
  | @redeclared r r' hr =>
    right
    obtain ⟨hprevious, hprevious'⟩ := hP.pos hr.previous
    refine ⟨r, file.position r.previous, file'.position r'.previous, rfl, message_redeclared file hprevious, ?_⟩
    rw [Redeclaration.message, hr.name]
    exact message_redeclared file' hprevious'

/-- Where the files tell the same places, so do the errors. -/
theorem Finding.Alike.moved (hP : KeepsOrder P) (hposition : ∀ p p', P p p' → file.position p = file'.position p')
    {f f' : Finding} (h : f.Alike P f') :
    (ParseError.ofFault file f.pos f.fault).Moved P (ParseError.ofFault file' f'.pos f'.fault) := by
  refine ⟨hposition _ _ h.pos, h.pos, h.fault.kind, ?_, h.fault.hint, h.fault.cause⟩
  obtain ⟨pos, fault⟩ := f
  obtain ⟨pos', fault'⟩ := f'
  obtain ⟨hpos, hfault⟩ := h
  cases hfault with
  | @same fault hcause =>
    cases fault with
    | redeclared => cases hcause
    | _ => rfl
  | @redeclared r r' hr =>
    obtain ⟨hprevious, hprevious'⟩ := hP.pos hr.previous
    show Fault.message file (.redeclared r) = Fault.message file' (.redeclared r')
    rw [message_redeclared file hprevious, message_redeclared file' hprevious', Redeclaration.message,
      Redeclaration.message, hr.name, hposition _ _ hr.previous]

/-! ### Files -/

theorem State.Alike.result (hP : KeepsOrder P) {E : ParseError → ParseError → Prop} {s s' : State} (h : s.Alike P s')
    (hE : ∀ f f' : Finding, f.Alike P f' →
      E (ParseError.ofFault s.file f.pos f.fault) (ParseError.ofFault s'.file f'.pos f'.fault)) :
    s.result.Alike P E s'.result := by
  have herrors : List.Forall₂ (fun e e' => E e e' ∧ P e.pos e'.pos)
      (s.findings.map fun f => ParseError.ofFault s.file f.pos f.fault)
      (s'.findings.map fun f => ParseError.ofFault s'.file f.pos f.fault) :=
    List.rel_map (R := Finding.Alike P) (fun f f' hf => ⟨hE f f' hf, hf.pos⟩) h.findings
  refine ⟨h.stmts, h.names.unresolved, h.names.objects, congrArg ScopeTree.pop h.names.scopes, ?_⟩
  refine (forall₂_mergeSort herrors fun he hf => ?_).imp fun _ _ he => he.1
  exact decide_eq_decide.mpr (hP.le_iff he.2 hf.2)

/-- Before the first token there is no place, so the states need be alike only once it is there. -/
theorem State.Alike.endState_all (hP : KeepsOrder P) (n : Nat) {s s' : State} (h : State.Alike P s.next s'.next) :
    State.Alike P (Parse.endState (all n) s) (Parse.endState (all n) s') := by
  rw [Parse.endState_all, Parse.endState_all, ← isEmpty_eq h.findings]
  split
  · exact .endState (.stmts hP _) { h with names := h.names.openScope .file }
  · exact h

theorem State.Alike.start {allErrors : Bool} (hlines : allErrors = true ∨
      ∀ p p', P p p' → (file.position p).line = (file'.position p').line) {x x' : Lexeme} {xs xs' : List Lexeme}
    (hx : x.Alike P x') (hxs : List.Forall₂ (Lexeme.Alike P) xs xs') :
    State.Alike P (State.start file allErrors (x :: xs)).next (State.start file' allErrors (x' :: xs')).next :=
  .foldl_keepLexical hx.errors
    { lines := hlines
      allErrors := rfl
      token := hx.token
      rest := hxs
      syncPos := .inr ⟨rfl, rfl⟩
      syncCount := rfl
      depth := rfl
      inRhs := rfl
      nextId := rfl
      stmts := .nil
      names := ⟨rfl, fun _ h => absurd h List.not_mem_nil, .nil, .nil⟩
      findings := .nil }

end Parse

/-- Texts with tokens that are alike are parsed alike, if unless all faults are wanted the lines are the same. -/
theorem SourceFile.parse_alike {P : Pos → Pos → Prop} (hP : KeepsOrder P) {E : ParseError → ParseError → Prop}
    {file file' : SourceFile} {source source' : String} {allErrors : Bool}
    (hlexemes : List.Forall₂ (Lexeme.Alike P) (Lexer.ofText source ⟨file.base⟩).lexemes
      (Lexer.ofText source' ⟨file'.base⟩).lexemes)
    (hlines : allErrors = true ∨ ∀ p p', P p p' → (file.position p).line = (file'.position p').line)
    (hE : ∀ f f' : Parse.Finding, f.Alike P f' →
      E (ParseError.ofFault file f.pos f.fault) (ParseError.ofFault file' f'.pos f'.fault)) :
    (file.parse source allErrors).Alike P E (file'.parse source' allErrors) := by
  have hstart : Parse.State.Alike P (.next (.start file allErrors (Lexer.ofText source ⟨file.base⟩).lexemes))
      (.next (.start file' allErrors (Lexer.ofText source' ⟨file'.base⟩).lexemes)) := by
    obtain ⟨xs, hxs⟩ := (Lexer.ofText source ⟨file.base⟩).lexemes_eq_cons
    obtain ⟨xs', hxs'⟩ := (Lexer.ofText source' ⟨file'.base⟩).lexemes_eq_cons
    rw [hxs, hxs'] at hlexemes ⊢
    obtain ⟨hfirst, hrest⟩ := List.forall₂_cons.mp hlexemes
    exact .start hlines hfirst hrest
  have hlast : Parse.State.Alike P (Parse.lastState file source allErrors)
      (Parse.lastState file' source' allErrors) := by
    rw [Parse.lastState, Parse.lastState, ← hlexemes.length_eq]
    exact .endState_all hP _ hstart
  refine hlast.result hP ?_
  rw [(Parse.settings_lastState file source allErrors).1, (Parse.settings_lastState file' source' allErrors).1]
  exact hE

end RoseLang
