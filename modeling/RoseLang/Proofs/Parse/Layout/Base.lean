import RoseLang.Proofs.Parse.Layout.File
import RoseLang.Proofs.Parse.Sound.File

/-!
# Where a file lies does not matter

The same text at two bases has the same tokens and the same faults, as far from the one base as from the other,
and each of the two files tells the same places. So the text is parsed alike, and it makes no difference which
files a set has when another one is added to it.
-/

namespace RoseLang

open Text

/-- The two positions are as far from the one base as from the other. -/
def Shifted (base base' : Nat) (p p' : Pos) : Prop := ∃ n, p.index = base + n ∧ p'.index = base' + n

theorem keepsOrder_shifted {base base' : Nat} (hbase : 0 < base) (hbase' : 0 < base') :
    KeepsOrder (Shifted base base') where
  pos := by
    rintro p p' ⟨n, hp, hp'⟩
    omega
  lt_iff := by
    rintro p p' q q' ⟨m, hp, hp'⟩ ⟨n, hq, hq'⟩
    omega

/-! ### Places -/

theorem SourceFile.position_shifted {name source : String} {base base' : Nat} {file file' : SourceFile}
    (hfile : ofText name base source = .ok file) (hfile' : ofText name base' source = .ok file') (hbase : 0 < base)
    (hbase' : 0 < base') {p p' : Pos} (h : Shifted base base' p p') : file.position p = file'.position p' := by
  obtain ⟨-, rfl⟩ := ofText_eq_ok_iff.mp hfile
  obtain ⟨-, rfl⟩ := ofText_eq_ok_iff.mp hfile'
  obtain ⟨n, hp, hp'⟩ := h
  have hvalid : p.isValid = true ∧ p'.isValid = true := by
    constructor
    · exact decide_eq_true (by omega)
    · exact decide_eq_true (by omega)
  have hcontains : ∀ {base : Nat} {p : Pos}, p.index = base + n →
      contains ⟨name, base, source.utf8ByteSize, LineMap.ofText source⟩ p = decide (n ≤ source.utf8ByteSize) :=
    fun h => by simp [contains, h]
  have hoffset : ∀ {base : Nat} {p : Pos}, p.index = base + n →
      offset ⟨name, base, source.utf8ByteSize, LineMap.ofText source⟩ p = min n source.utf8ByteSize :=
    fun h => by simp [offset, h]
  rw [position, position, hvalid.1, hvalid.2, hcontains hp, hcontains hp', hoffset hp, hoffset hp']

/-! ### Tokens -/

namespace Lexer

/-- Both lexers have read the same part of the source text, from different bases, and have met the same. -/
structure Parallel (base base' : Pos) (source before : List Char) (l l' : Lexer) : Prop where
  left : l.At base source before
  right : l'.At base' source before
  pending : l.pending = l'.pending
  errors : List.Forall₂ (LexError.Alike (Shifted base.index base'.index)) l.errors l'.errors

namespace Parallel

variable {base base' : Pos} {source before : List Char} {l l' : Lexer}

theorem rest (h : Parallel base base' source before l l') : l.rest = l'.rest :=
  List.append_cancel_left (h.left.source_eq.symm.trans h.right.source_eq)

theorem offset (h : Parallel base base' source before l l') : l.offset = l'.offset :=
  h.left.offset_eq.trans h.right.offset_eq.symm

theorem advance (h : Parallel base base' source before l l') {n : Nat} (hn : n ≤ utf8Length source) :
    Shifted base.index base'.index (l.base.advance n) (l'.base.advance n) :=
  ⟨n, h.left.index_advance hn, h.right.index_advance hn⟩

theorem pos (h : Parallel base base' source before l l') : Shifted base.index base'.index l.pos l'.pos :=
  ⟨utf8Length before, h.left.index_pos, h.right.index_pos⟩

theorem record (h : Parallel base base' source before l l') {faults : List FaultAt}
    (hfaults : ∀ f ∈ faults, l.offset + f.start ≤ utf8Length source) :
    List.Forall₂ (LexError.Alike (Shifted base.index base'.index)) (l.record faults).errors
      (l'.record faults).errors := by
  refine List.rel_append h.errors ?_
  rw [List.forall₂_map_left_iff, List.forall₂_map_right_iff, List.forall₂_same, ← h.offset]
  exact fun f hf => ⟨h.advance (hfaults f hf), rfl⟩

section
variable (h : Parallel base base' source before l l') {c : Char} {cs : List Char} (hrest : l.rest = c :: cs)
include h hrest

theorem afterGap (more : Nat) (fault : Option LexicalFault) :
    Parallel base base' source (before ++ c :: cs.take more) (l.afterGap more fault) (l'.afterGap more fault) := by
  have hwidth : (l.skip (more + 1)).offset - l.offset = (l'.skip (more + 1)).offset - l'.offset := by
    rw [skip, skip, h.offset, h.rest]
  refine ⟨h.left.advances (advances_skip hrest more _ _), h.right.advances (advances_skip (h.rest ▸ hrest) more _ _),
    h.pending, ?_⟩
  rw [Lexer.afterGap, Lexer.afterGap, ← hwidth]
  refine h.record fun f hf => ?_
  obtain ⟨x, -, rfl⟩ := Option.map_eq_some_iff.mp (Option.mem_toList.mp hf)
  rw [h.left.offset_eq, h.left.source_eq, utf8Length_append]
  exact Nat.le_add_right _ _

theorem afterToken {kind : Kind} {more : Nat} {faults : List FaultAt}
    (hpiece : Piece.first c cs = .token kind more faults) :
    Parallel base base' source (before ++ c :: cs.take more) (l.afterToken kind more faults)
      (l'.afterToken kind more faults) := by
  have hfits := Piece.fits_first c cs
  rw [hpiece] at hfits
  have hleft := h.left.advances (advances_skip hrest more kind.endsStatement (l.record faults).errors)
  refine ⟨hleft, h.right.advances (advances_skip (h.rest ▸ hrest) more _ _), rfl, ?_⟩
  cases hfits with
  | token hmore hkind htext hfaults =>
    refine h.record fun f hf => ?_
    obtain ⟨hlt, hle⟩ := hfaults f hf
    rw [h.left.offset_eq, hleft.source_eq, utf8Length_append, utf8Length_append]
    omega

end

/-- What comes after a terminator is not a line end any more. -/
theorem ended (h : Parallel base base' source before l l') :
    Parallel base base' source before { l with pending := false } { l' with pending := false } :=
  ⟨⟨h.left.base_eq, h.left.source_eq, h.left.offset_eq, h.left.fits⟩,
    ⟨h.right.base_eq, h.right.source_eq, h.right.offset_eq, h.right.fits⟩, rfl, h.errors⟩

theorem takeErrors (h : Parallel base base' source before l l') :
    Parallel base base' source before l.takeErrors.2 l'.takeErrors.2 :=
  ⟨⟨h.left.base_eq, h.left.source_eq, h.left.offset_eq, h.left.fits⟩,
    ⟨h.right.base_eq, h.right.source_eq, h.right.offset_eq, h.right.fits⟩, h.pending, .nil⟩

theorem next (before : List Char) (l l' : Lexer) (h : Parallel base base' source before l l') :
    l.next.1.Alike (Shifted base.index base'.index) l'.next.1 ∧
      ∃ read, Parallel base base' source read l.next.2 l'.next.2 := by
  -- on the pieces of the left lexer: the right one has the same characters before it, so it meets the same pieces
  fun_induction Lexer.next l generalizing before l' with
  | case1 l hrest =>
    rw [next_of_nil (l := l') (h.rest ▸ hrest), ← h.pending]
    exact ⟨⟨rfl, rfl, h.pos⟩, before, h.ended⟩
  | case2 l c cs hrest more breaks fault hpiece left width left' hbreaks =>
    rw [next_of_break (l := l') (h.rest ▸ hrest) hpiece (h.pending ▸ hbreaks)]
    exact ⟨⟨rfl, rfl, h.pos⟩, _, (h.afterGap hrest more fault).ended⟩
  | case3 l c cs hrest more breaks fault hpiece left width left' hbreaks ih =>
    rw [next_of_gap (l := l') (h.rest ▸ hrest) hpiece (h.pending ▸ Bool.eq_false_iff.mpr hbreaks)]
    exact ih _ _ (h.afterGap hrest more fault)
  | case4 l c cs hrest kind more faults hpiece left text =>
    have htext : text = if kind.keepsText then String.ofList (c :: cs.take more) else "" := by
      rw [← List.take_succ_cons, ← hrest]
      rfl
    rw [next_of_token (l := l') (h.rest ▸ hrest) hpiece]
    exact ⟨⟨rfl, htext, h.pos⟩, _, h.afterToken hrest hpiece⟩

theorem lexemes (before : List Char) (l l' : Lexer) (h : Parallel base base' source before l l') :
    List.Forall₂ (Lexeme.Alike (Shifted base.index base'.index)) l.lexemes l'.lexemes := by
  fun_induction Lexer.lexemes l generalizing before l' with
  | case1 l heof =>
    obtain ⟨htoken, read, hnext⟩ := next _ _ _ h.takeErrors
    rw [lexemes_of_eof (l := l') (htoken.kind ▸ heof)]
    exact .cons ⟨htoken, hnext.errors⟩ .nil
  | case2 l hne ih =>
    obtain ⟨htoken, read, hnext⟩ := next _ _ _ h.takeErrors
    rw [lexemes_of_ne_eof (l := l') (htoken.kind ▸ hne)]
    exact .cons ⟨htoken, hnext.errors⟩ (ih _ _ hnext)

end Parallel

end Lexer

/-! ### Sets of files -/

namespace FileSet

/-- The sets that come about when files are added one after the other. -/
inductive Reachable : FileSet → Prop where
  | empty : Reachable .empty
  | add {s s' : FileSet} {name source : String} {file : SourceFile} (h : Reachable s)
      (hadd : s.add name source = .ok (file, s')) : Reachable s'

theorem Reachable.pos {s : FileSet} (h : s.Reachable) : 0 < s.next := by
  cases h with
  | empty => exact Nat.zero_lt_one
  | add h hadd =>
    rw [(add_eq_ok_iff.mp hadd).2.2]
    exact Nat.succ_pos _

theorem parse_eq_ok_iff {s s' : FileSet} {name source : String} {allErrors : Bool} {r : ParseResult} :
    s.parse name source allErrors = .ok (r, s') ↔
      ∃ file, s.add name source = .ok (file, s') ∧ r = file.parse source allErrors := by
  rw [FileSet.parse, except_bind_eq_ok]
  constructor
  · rintro ⟨⟨file, next⟩, hadd, h⟩
    obtain ⟨rfl, rfl⟩ := Prod.mk.inj (Except.ok.inj h)
    exact ⟨file, hadd, rfl⟩
  · rintro ⟨file, hadd, rfl⟩
    exact ⟨(file, s'), hadd, rfl⟩

end FileSet

/-! ### Parses -/

/-- The same result but for its positions, which are as far from the one base as from the other. Parentheses that
are not there are nowhere in both. -/
def ParseResult.Moved (base base' : Nat) : ParseResult → ParseResult → Prop :=
  Alike (Shifted base base') (ParseError.Moved (Shifted base base'))

theorem SourceFile.parse_moved {name source : String} {base base' : Nat} {file file' : SourceFile}
    (hbase : 0 < base) (hbase' : 0 < base') (hfile : ofText name base source = .ok file)
    (hfile' : ofText name base' source = .ok file') (allErrors : Bool) :
    ParseResult.Moved base base' (file.parse source allErrors) (file'.parse source allErrors) := by
  obtain rfl := base_ofText hfile
  obtain rfl := base_ofText hfile'
  have hP := keepsOrder_shifted hbase hbase'
  have hposition : ∀ p p', Shifted file.base file'.base p p' → file.position p = file'.position p' :=
    fun p p' => position_shifted hfile hfile' hbase hbase'
  have hlexemes := Lexer.Parallel.lexemes [] (.ofText source ⟨file.base⟩) (.ofText source ⟨file'.base⟩)
    ⟨Lexer.at_ofText (fits_of_ofText hfile), Lexer.at_ofText (fits_of_ofText hfile'), rfl, .nil⟩
  refine parse_alike hP hlexemes (.inr fun p p' h => ?_) fun _ _ hf => hf.moved hP hposition
  rw [hposition p p' h]

/-- The base of a file only shifts positions: in particular a file that is added to a set of others is parsed as
it is alone. -/
theorem SourceFile.parse_base (name source : String) (allErrors : Bool) :
    (∀ (base base' : Nat) (file file' : SourceFile), 0 < base → 0 < base' → ofText name base source = .ok file →
        ofText name base' source = .ok file' →
        ParseResult.Moved base base' (file.parse source allErrors) (file'.parse source allErrors)) ∧
      ∀ (s s' : FileSet) (r : ParseResult), s.Reachable → s.parse name source allErrors = .ok (r, s') →
        ∃ alone s₀, FileSet.empty.parse name source allErrors = .ok (alone, s₀) ∧
          ParseResult.Moved 1 s.next alone r := by
  refine ⟨fun base base' file file' hbase hbase' hfile hfile' => parse_moved hbase hbase' hfile hfile' allErrors,
    fun s s' r hs hr => ?_⟩
  obtain ⟨file', hadd, rfl⟩ := FileSet.parse_eq_ok_iff.mp hr
  obtain ⟨hfile', hfits, -⟩ := FileSet.add_eq_ok_iff.mp hadd
  have hpos := hs.pos
  let file : SourceFile := ⟨name, 1, source.utf8ByteSize, LineMap.ofText source⟩
  have hsize : file'.size = source.utf8ByteSize := by rw [(ofText_eq_ok_iff.mp hfile').2]
  have hfile : ofText name 1 source = .ok file := ofText_eq_ok_iff.mpr ⟨by omega, rfl⟩
  have hempty : FileSet.empty.add name source = .ok (file, ⟨1 + file.size + 1, [file]⟩) :=
    FileSet.add_eq_ok_iff.mpr ⟨hfile, by show 1 + source.utf8ByteSize + 1 ≤ _; omega, rfl⟩
  exact ⟨_, _, FileSet.parse_eq_ok_iff.mpr ⟨file, hempty, rfl⟩,
    parse_moved Nat.zero_lt_one hpos hfile hfile' allErrors⟩

/-- A redeclaration in the second file of a set, whose base is 4. -/
theorem SourceFile.parse_base_second :
    ∃ file s s' r alone s₀, FileSet.empty.add "a" "é" = .ok (file, s) ∧ s.Reachable ∧
      s.parse "b" "var x int; let x = 1" false = .ok (r, s') ∧
      FileSet.empty.parse "b" "var x int; let x = 1" false = .ok (alone, s₀) ∧ ParseResult.Moved 1 4 alone r ∧
      r.errors.map (fun e => (e.pos.index, e.text)) =
        [(19, "b:1:16: x redeclared in this block\n\tprevious declaration at b:1:5")] := by
  let source := "var x int; let x = 1"
  let file : SourceFile := ⟨"a", 1, 2, LineMap.ofText "é"⟩
  let s : FileSet := ⟨4, [file]⟩
  let second : SourceFile := ⟨"b", 4, source.utf8ByteSize, LineMap.ofText source⟩
  have hadd : FileSet.empty.add "a" "é" = .ok (file, s) := rfl
  have hs : s.Reachable := .add .empty hadd
  have hsecond : s.parse "b" source false = .ok (second.parse source false, ⟨25, [file, second]⟩) := rfl
  obtain ⟨-, hset⟩ := SourceFile.parse_base "b" source false
  obtain ⟨alone, s₀, halone, hmoved⟩ := hset s _ _ hs hsecond
  exact ⟨file, s, _, _, alone, s₀, hadd, hs, hsecond, halone, hmoved, by decide +kernel⟩

/-- The parentheses that a declaration does not have are nowhere, whatever the base. -/
theorem SourceFile.parse_base_single :
    ∃ file file' entry entry', ofText "" 1 "let x = 1" = .ok file ∧ ofText "" 2 "let x = 1" = .ok file' ∧
      (file.parse "let x = 1" false).file.stmts = [.decl 4 (.specs 3 .letWord ⟨1⟩ .none [entry] .none)] ∧
      (file'.parse "let x = 1" false).file.stmts = [.decl 4 (.specs 3 .letWord ⟨2⟩ .none [entry'] .none)] ∧
      ¬ Shifted 1 2 .none .none := by
  let source := "let x = 1"
  let file : SourceFile := ⟨"", 1, source.utf8ByteSize, LineMap.ofText source⟩
  let file' : SourceFile := ⟨"", 2, source.utf8ByteSize, LineMap.ofText source⟩
  refine ⟨file, file', ⟨2, [⟨0, ⟨5⟩, "x", .resolved 0⟩], none, [.literal 1 ⟨⟨9⟩, .int, "1"⟩]⟩,
    ⟨2, [⟨0, ⟨6⟩, "x", .resolved 0⟩], none, [.literal 1 ⟨⟨10⟩, .int, "1"⟩]⟩, rfl, rfl, by decide +kernel,
    by decide +kernel, ?_⟩
  rintro ⟨n, hn, -⟩
  have hzero : 0 = 1 + n := hn
  omega

end RoseLang
