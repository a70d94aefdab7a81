import RoseLang.Proofs.Token.Literals

/-!
# What pieces are made of

Whatever the text, each of its pieces lies within it, and so do the faults of a piece. `Piece.Fits` says
what else is known of the characters of a piece: those of a token are its spelling unless it keeps them,
and those of a gap without a fault are a blank or a comment, which it remains in front of a line feed.
-/

namespace RoseLang

open Text

/-- The characters that may stand alone between tokens. -/
def blanks : List Char := [' ', '\t', '\r', '\n']

/-- The characters are a comment where `after` follows them: one that goes on to the end of its line, or
one that ends as soon as it is closed. -/
inductive IsComment : List Char → List Char → Prop where
  | line {body after : List Char} (hbody : '\n' ∉ body) (hafter : ∀ c ∈ after.head?, c = '\n') :
      IsComment ('/' :: '/' :: body) after
  | block {body after : List Char} (hbody : ¬ ['*', '/'] <:+: body ++ ['*']) :
      IsComment ('/' :: '*' :: (body ++ ['*', '/'])) after

/-- Whether the texts of the kind vary, or are words: these are the kinds of which a token has its text,
except for written terminators. -/
def Kind.isWordOrLiteral (k : Kind) : Bool := k.isLiteral || k.isKeyword || operatorWords.contains k

/-- The fault covers some of the characters, and nothing else. -/
def FaultAt.Within (f : FaultAt) (cs : List Char) : Prop := f.start < f.stop ∧ f.stop ≤ utf8Length cs

theorem Text.length_le_utf8Length (cs : List Char) : cs.length ≤ utf8Length cs := by
  induction cs with
  | nil => exact Nat.le_refl _
  | cons c cs ih =>
    have := c.utf8Size_pos
    rw [List.length_cons, utf8Length_cons]
    omega

/-- What is known of the piece that starts with `c` and goes on in `cs`. -/
inductive Piece.Fits (c : Char) (cs : List Char) : Piece → Prop where
  | gap {more : Nat} {breaks : Bool} {fault : Option LexicalFault} (hmore : more ≤ cs.length)
      (hbreaks : breaks = (c :: cs.take more).contains '\n')
      (hfault : fault = none →
        (∃ d ∈ blanks, c :: cs.take more = [d]) ∨ IsComment (c :: cs.take more) (cs.drop more)) :
      Fits c cs (.gap more breaks fault)
  | token {kind : Kind} {more : Nat} {faults : List FaultAt} (hmore : more ≤ cs.length) (hkind : kind ≠ .eof)
      (htext : kind.isWordOrLiteral = true ∨ c :: cs.take more = kind.spelling.toList)
      (hfaults : ∀ f ∈ faults, f.Within (c :: cs.take more)) :
      Fits c cs (.token kind more faults)

/-! ### Literals -/

theorem Piece.fits_ofLiteral {c : Char} {cs : List Char} {s : LiteralScan} (hmore : s.more ≤ cs.length)
    (hfaults : ∀ f ∈ s.faults, f.Within (c :: cs.take s.more)) : Fits c cs (ofLiteral s) := by
  refine .token hmore ?_ (.inl ?_) hfaults
  · cases s.kind <;> decide
  · cases s.kind <;> rfl

namespace Number

theorem scanUnmarked_eq_scanned (first : Char) (cs : List Char) :
    ∃ kind more fault, scanUnmarked first cs = scanned kind more fault := by
  rw [scanUnmarked_eq]
  dsimp only
  split
  · exact ⟨_, _, _, rfl⟩
  · exact ⟨_, _, _, rfl⟩

theorem scan_eq_scanned (first : Char) (cs : List Char) :
    ∃ kind more fault, scan first cs = scanned kind more fault := by
  rw [scan.eq_def]
  split
  · split
    · exact ⟨_, _, _, rfl⟩
    · exact scanUnmarked_eq_scanned _ _
  · exact scanUnmarked_eq_scanned _ _

/-- A fault of a number covers all of it. -/
theorem fits_of_scanned {c : Char} {cs : List Char} {s : LiteralScan}
    (h : ∃ kind more fault, s = scanned kind more fault) (hmore : s.more ≤ cs.length) :
    Piece.Fits c cs (Piece.ofLiteral s) := by
  refine Piece.fits_ofLiteral hmore ?_
  obtain ⟨kind, more, fault, rfl⟩ := h
  rw [more_scanned] at hmore ⊢
  intro f hf
  obtain ⟨fault', -, rfl⟩ : ∃ x, fault = some x ∧ FaultAt.mk 0 (1 + more) x = f := by
    simpa [scanned] using hf
  have hlength := length_le_utf8Length (c :: cs.take more)
  rw [List.length_cons, List.length_take_of_le hmore] at hlength
  refine ⟨?_, ?_⟩
  · exact Nat.lt_of_lt_of_le Nat.zero_lt_one (Nat.le_add_right 1 more)
  · show 1 + more ≤ _
    omega

end Number

namespace QuotedLiteral

theorem within_body (quote : Char) (offset : Nat) (cs : List Char) :
    ∀ f ∈ (body quote offset cs).faults,
      f.start < f.stop ∧ f.stop ≤ offset + utf8Length (cs.take (body quote offset cs).length) := by
  fun_induction body quote offset cs with
  | case1 offset => simp
  | case2 offset cs => simp
  | case3 offset cs hline => simp
  | case4 offset cs length fault hescape stop next hline hquote ih =>
    have htake : ('\\' :: cs).take (1 + length + next.length) =
        '\\' :: (cs.take length ++ (cs.drop length).take next.length) := by
      rw [Nat.add_assoc, Nat.add_comm 1, List.take_succ_cons, List.take_add]
    have hwidth : ('\\' : Char).utf8Size = 1 := rfl
    intro f hf
    rw [htake, utf8Length_cons, utf8Length_append, hwidth]
    rcases List.mem_append.mp hf with hf | hf
    · obtain ⟨x, -, rfl⟩ : ∃ x, fault = some x ∧ FaultAt.mk offset stop x = f := by simpa using hf
      dsimp only [stop]
      omega
    · have := ih f hf
      dsimp only [stop, next] at this ⊢
      omega
  | case5 offset c cs hline hquote hescape next ih =>
    have htake : (c :: cs).take (1 + next.length) = c :: cs.take next.length := by
      rw [Nat.add_comm, List.take_succ_cons]
    intro f hf
    have := ih f hf
    rw [htake, utf8Length_cons]
    dsimp only [next] at this ⊢
    omega

theorem fits_scan {c : Char} (hc : c.utf8Size = 1) (kind : LiteralKind) (cs : List Char) :
    Piece.Fits c cs (Piece.ofLiteral (scan kind c cs)) := by
  refine Piece.fits_ofLiteral (length_body_le c 1 cs) fun f hf => ?_
  have hmore : (scan kind c cs).more = (body c 1 cs).length := rfl
  rw [FaultAt.Within, hmore, utf8Length_cons, hc]
  rcases List.mem_append.mp hf with hf | hf
  · exact within_body c 1 cs f hf
  · obtain ⟨x, -, rfl⟩ := Option.map_eq_some_iff.mp (Option.mem_toList.mp hf)
    exact ⟨Nat.lt_of_lt_of_le Nat.zero_lt_one (Nat.le_add_right 1 _), Nat.le_refl _⟩

theorem fits_scanRaw (cs : List Char) : Piece.Fits '\x60' cs (Piece.ofLiteral (scanRaw cs)) := by
  refine Piece.fits_ofLiteral (more_scanRaw_le cs) fun f hf => ?_
  rw [scanRaw] at hf ⊢
  split at hf
  · cases hf
  · next hopen =>
    obtain rfl := List.mem_singleton.mp hf
    rw [if_neg hopen]
    dsimp only
    rw [take_length_takeWhile]
    exact ⟨Nat.lt_of_lt_of_le Nat.zero_lt_one (Nat.le_add_right 1 _), Nat.le_refl _⟩

end QuotedLiteral

/-! ### Words and signs -/

theorem Word.isWordOrLiteral_kind (word : String) :
    Word.kind word ≠ .eof ∧ (Word.kind word).isWordOrLiteral = true := by
  have hall : ∀ k ∈ Kind.ident :: (Kind.keywords ++ Kind.operatorWords), k ≠ .eof ∧ k.isWordOrLiteral = true := by
    decide
  exact hall _ (kind_mem word)

/-- A sign is written as it is spelled. -/
theorem Sign.take_of_kind? {c : Char} {cs : List Char} {kind : Kind} (h : kind? c cs = some kind) :
    c :: cs.take (kind.spelling.length - 1) = kind.spelling.toList := by
  have hpos := kind.length_spelling_pos
  rw [← List.take_succ_cons, List.prefix_iff_eq_take.mp (kind?_spelling h), String.length_toList]
  congr 1
  omega

theorem Piece.fits_sign {c : Char} {cs : List Char} {kind : Kind} (h : Sign.kind? c cs = some kind) :
    Fits c cs (.token kind (kind.spelling.length - 1) []) := by
  have hprefix := Sign.kind?_spelling h
  have hlength := hprefix.length_le
  rw [String.length_toList, List.length_cons] at hlength
  refine .token (by omega) (fun heof => ?_) (.inr (Sign.take_of_kind? h)) (by simp)
  subst heof
  obtain ⟨ds, hds⟩ := hprefix
  obtain rfl : c = 'E' := (List.cons.inj hds).1.symm
  cases h

/-! ### Comments -/

namespace Piece

theorem fits_lineComment {cs : List Char} (h : cs.head? = some '/') :
    Fits '/' cs (.gap (cs.takeWhile (· ≠ '\n')).length false none) := by
  obtain ⟨ds, rfl⟩ := List.head?_eq_some_iff.mp h
  have hsplit := List.takeWhile_append_dropWhile (p := (· ≠ '\n')) (l := '/' :: ds)
  generalize htake : ('/' :: ds).takeWhile (· ≠ '\n') = line at hsplit ⊢
  generalize hdrop : ('/' :: ds).dropWhile (· ≠ '\n') = after at hsplit
  have hline : '\n' ∉ line := by
    intro hmem
    rw [← htake] at hmem
    simpa using List.all_eq_true.mp List.all_takeWhile _ hmem
  have hafter : ∀ c ∈ after.head?, c = '\n' := by
    intro c hc
    have := List.head?_dropWhile_not (· ≠ '\n') ('/' :: ds)
    rw [hdrop, hc] at this
    simpa using this
  obtain ⟨body, rfl⟩ : ∃ body, line = '/' :: body :=
    ⟨_, by rw [← htake, List.takeWhile_cons_of_pos (by decide)]⟩
  rw [← hsplit]
  refine .gap (List.prefix_append _ _).length_le ?_ fun _ => .inr ?_
  · rw [List.take_left]
    simpa using hline
  · rw [List.take_left, List.drop_left]
    exact .line (fun hmem => hline (List.mem_cons_of_mem _ hmem)) hafter

theorem commentLength_le (cs : List Char) : (commentLength cs).1 ≤ cs.length := by
  induction cs with
  | nil => exact Nat.le_refl _
  | cons c cs ih =>
    rw [commentLength]
    split
    · next hclose =>
      obtain ⟨ds, rfl⟩ := List.head?_eq_some_iff.mp hclose.2
      exact Nat.succ_le_succ (Nat.succ_le_succ (Nat.zero_le _))
    · exact Nat.succ_le_succ ih

/-- A comment that is closed ends where that happens first. -/
theorem take_commentLength {cs : List Char} (h : (commentLength cs).2 = true) :
    ∃ body, cs.take (commentLength cs).1 = body ++ ['*', '/'] ∧ ¬ ['*', '/'] <:+: body ++ ['*'] := by
  induction cs with
  | nil => cases h
  | cons c cs ih =>
    rw [commentLength] at h ⊢
    split at h
    · next hclose =>
      obtain ⟨rfl, hhead⟩ := hclose
      obtain ⟨ds, rfl⟩ := List.head?_eq_some_iff.mp hhead
      exact ⟨[], rfl, by decide⟩
    · next hopen =>
      obtain ⟨body, htake, hbody⟩ := ih h
      rw [if_neg hopen]
      refine ⟨c :: body, congrArg (c :: ·) htake, fun hinfix => ?_⟩
      rcases List.infix_cons_iff.mp hinfix with hprefix | hinfix
      · obtain ⟨rfl, hslash⟩ := List.cons_prefix_cons.mp hprefix
        have hstart : body ++ ['*'] <+: cs := by
          have : body ++ ['*', '/'] <+: cs := htake ▸ List.take_prefix _ _
          exact List.IsPrefix.trans ⟨['/'], by simp⟩ this
        obtain ⟨ds, rfl⟩ := hslash.trans hstart
        exact hopen ⟨rfl, rfl⟩
      · exact hbody hinfix

theorem commentLength_append {cs : List Char} (tail : List Char) (h : (commentLength cs).2 = true) :
    commentLength (cs ++ tail) = commentLength cs := by
  induction cs with
  | nil => cases h
  | cons c cs ih =>
    rw [List.cons_append, commentLength, commentLength]
    rw [commentLength] at h
    by_cases hclose : c = '*' ∧ cs.head? = some '/'
    · rw [if_pos hclose, if_pos ⟨hclose.1, by rw [List.head?_append, hclose.2]; rfl⟩]
    · rw [if_neg hclose] at h
      have hhead : (cs ++ tail).head? = cs.head? := by
        cases cs with
        | nil => cases h
        | cons d cs => rfl
      rw [if_neg hclose, hhead, if_neg hclose, ih h]

theorem blockComment_append {cs : List Char} {more : Nat} {breaks : Bool} (tail : List Char)
    (h : blockComment cs = .gap more breaks none) : blockComment (cs ++ tail) = .gap more breaks none := by
  have hclosed : (commentLength cs).2 = true := by
    cases hclosed : (commentLength cs).2 with
    | true => rfl
    | false =>
      rw [blockComment] at h
      simp [hclosed] at h
  rw [← h, blockComment, blockComment, commentLength_append tail hclosed]
  dsimp only
  rw [List.take_append_of_le_length (commentLength_le cs)]

theorem fits_blockComment {cs : List Char} (h : cs.head? = some '*') :
    Fits '/' cs (blockComment (cs.drop 1)) := by
  obtain ⟨ds, rfl⟩ := List.head?_eq_some_iff.mp h
  have hle := commentLength_le ds
  have htake : ('*' :: ds).take (1 + (commentLength ds).1) = '*' :: ds.take (commentLength ds).1 := by
    rw [Nat.add_comm, List.take_succ_cons]
  show Fits '/' ('*' :: ds) (blockComment ds)
  refine .gap ?_ ?_ fun hclosed => .inr ?_
  · rw [List.length_cons]
    omega
  · rw [htake]
    simp
  · have hclosed : (commentLength ds).2 = true := by
      cases hc : (commentLength ds).2 with
      | true => rfl
      | false => simp [hc] at hclosed
    obtain ⟨body, hbody, hfirst⟩ := take_commentLength hclosed
    rw [htake, hbody]
    exact .block hfirst

/-! ### Pieces -/

/-- A piece lies within the text, and so do its faults. -/
theorem fits_first (c : Char) (cs : List Char) : Fits c cs (first c cs) := by
  have hfirst := isFirst_first c cs
  generalize first c cs = p at hfirst
  cases hfirst with
  | blank hc =>
    refine .gap (Nat.zero_le _) ?_ fun _ => .inl ⟨c, ?_, rfl⟩
    · rcases hc with rfl | rfl | rfl <;> rfl
    · rcases hc with rfl | rfl | rfl <;> decide
  | line hc =>
    subst hc
    exact .gap (Nat.zero_le _) rfl fun _ => .inl ⟨'\n', by decide, rfl⟩
  | word hc =>
    obtain ⟨hkind, htext⟩ := Word.isWordOrLiteral_kind (String.ofList (c :: cs.takeWhile Word.isPart))
    exact .token (List.takeWhile_prefix _).length_le hkind (.inl htext) (by simp)
  | number hword hc => exact Number.fits_of_scanned (Number.scan_eq_scanned c cs) (Number.more_scan_le c cs)
  | char hc =>
    subst hc
    exact QuotedLiteral.fits_scan rfl .char cs
  | string hc =>
    subst hc
    exact QuotedLiteral.fits_scan rfl .string cs
  | raw hc =>
    subst hc
    exact QuotedLiteral.fits_scanRaw cs
  | lineComment hc hcs =>
    subst hc
    exact fits_lineComment hcs
  | blockComment hc hcs =>
    subst hc
    exact fits_blockComment hcs
  | fraction hc hcs => exact Number.fits_of_scanned ⟨_, _, _, rfl⟩ (Number.more_scanFraction_le cs)
  | sign hc hcomment hpoint hkind => exact fits_sign hkind
  | points hc hkind =>
    subst hc
    obtain ⟨ds, rfl⟩ := Sign.point_of_kind?_eq_none hkind
    exact .gap (Nat.succ_le_succ (Nat.zero_le _)) rfl fun hnone => by cases hnone
  | illegal hc hpoint hkind =>
    refine .gap (Nat.zero_le _) ?_ fun hnone => by cases hnone
    simpa using Ne.symm hc.line

theorem takeWhile_ne_append {d : Char} {cs tail : List Char} (htail : ∀ c ∈ tail.head?, c = d) :
    (cs ++ tail).takeWhile (· ≠ d) = cs.takeWhile (· ≠ d) := by
  induction cs with
  | nil =>
    cases tail with
    | nil => rfl
    | cons c tail =>
      obtain rfl := htail c rfl
      exact List.takeWhile_cons_of_neg (by simp)
  | cons c cs ih => rw [List.cons_append, List.takeWhile_cons, List.takeWhile_cons, ih]

/-- A line feed after the text leaves a gap without a fault as it is. -/
theorem first_append_gap {c : Char} {cs tail : List Char} {more : Nat} {breaks : Bool}
    (htail : ∀ d ∈ tail.head?, d = '\n') (h : first c cs = .gap more breaks none) :
    first c (cs ++ tail) = .gap more breaks none := by
  have hfirst := isFirst_first c cs
  generalize first c cs = p at h hfirst
  refine IsFirst.first_eq ?_
  cases hfirst with
  | blank hc => exact h ▸ .blank hc
  | line hc => exact h ▸ .line hc
  | lineComment hc hcs =>
    obtain ⟨ds, rfl⟩ := List.head?_eq_some_iff.mp hcs
    rw [← h, ← takeWhile_ne_append htail]
    exact .lineComment hc rfl
  | blockComment hc hcs =>
    obtain ⟨ds, rfl⟩ := List.head?_eq_some_iff.mp hcs
    exact blockComment_append tail h ▸ .blockComment hc rfl
  | word | number | char | string | raw | fraction | sign | points | illegal => cases h

theorem more_le_of_first {c : Char} {cs : List Char} {kind : Kind} {more : Nat} {faults : List FaultAt}
    (h : first c cs = .token kind more faults) : more ≤ cs.length := by
  have hfits := fits_first c cs
  rw [h] at hfits
  cases hfits with
  | token hmore => exact hmore

end Piece

end RoseLang
