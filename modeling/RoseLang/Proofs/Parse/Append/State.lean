import Mathlib.Data.List.Forall2
import RoseLang.Proofs.Parse.Progress
import RoseLang.Proofs.Parse.Reading

/-!
# A parse inside a longer one

A text that is parsed without a fault is parsed in the same way where other text stands before and after it: what
stands before it has used up some places and some numbers, and in place of its end token the parse finds the
tokens of what comes after it. `Seam` says how the text lies in the longer one, `Joined` how the state of the
longer parse follows from that of the parse alone, and `Mimics` that the longer parse does what the one alone does,
as long as the latter meets no fault and has not read its end token. Names are left out: they may be known from
what stands before, so only the longer parse may find a declaration or a type at fault.
-/

namespace RoseLang

/-- The position `n` bytes further on, if there is one. -/
def Pos.moved (n : Nat) (p : Pos) : Pos := if p.isValid then ⟨p.index + n⟩ else p

@[simp] theorem Pos.isValid_moved (n : Nat) (p : Pos) : (p.moved n).isValid = p.isValid := by
  rw [moved]
  split
  · next h =>
    have hne : p.index ≠ 0 := of_decide_eq_true h
    have hpos : p.index + n ≠ 0 := by omega
    rw [h]
    exact decide_eq_true hpos
  · rfl

theorem Pos.moved_zero (p : Pos) : p.moved 0 = p := by
  rw [moved]
  split <;> rfl

namespace Parse

/-- Whether the fault lies in what other declarations say: a type that is no type, or a second declaration. -/
def Fault.IsClash : Fault → Prop
  | .notType _ | .redeclared _ => True
  | _ => False

/-- How a text lies in a longer one: how many places and how many numbers have been used up before it, and which
tokens stand in place of its end token. -/
structure Seam where
  bytes : Nat
  ids : Nat
  follow : List Token
  follow_ne_nil : follow ≠ []

namespace Seam

variable (m : Seam)

/-- The same token. The terminator at the end of the text stands for a line end in the longer one. -/
structure Same (t t' : Token) : Prop where
  kind : t'.kind = t.kind
  text : t.kind = .semi ∨ t'.text = t.text
  implicit : t'.isImplicitSemi = t.isImplicitSemi
  pos : t'.pos = t.pos.moved m.bytes

/-- The same tokens, up to the end of the text. -/
inductive Lead : List Token → List Token → Prop where
  | last {t : Token} (heof : t.kind = .eof) : Lead [t] m.follow
  | cons {t t' : Token} {ts ts' : List Token} (ht : m.Same t t') (hne : t.kind ≠ .eof) (hrest : Lead ts ts') :
      Lead (t :: ts) (t' :: ts')

/-- The longer parse is where the parse alone is. Whatever it has reported is a clash. -/
structure Joined (s s' : State) : Prop where
  allErrors : s'.allErrors = true
  tokens : m.Lead s.tokens s'.tokens
  clean : ∀ l ∈ s.rest, l.errors = []
  clean' : ∀ l ∈ s'.rest, l.errors = []
  depth : s'.depth = s.depth
  inRhs : s'.inRhs = s.inRhs
  nextId : s'.nextId = s.nextId + m.ids
  clashes : ∀ f ∈ s'.findings, f.fault.IsClash

variable {m}

theorem Same.text_eq {t t' : Token} (h : m.Same t t') (hkind : t.kind ≠ .semi) : t'.text = t.text :=
  h.text.resolve_left hkind

theorem Lead.ne_nil {ts ts' : List Token} (h : m.Lead ts ts') : ts ≠ [] ∧ ts' ≠ [] := by
  cases h with
  | last => exact ⟨List.cons_ne_nil _ _, m.follow_ne_nil⟩
  | cons => exact ⟨List.cons_ne_nil _ _, List.cons_ne_nil _ _⟩

theorem Lead.of_ne_eof {t : Token} {ts ts' : List Token} (h : m.Lead (t :: ts) ts') (hne : t.kind ≠ .eof) :
    ∃ u us, ts' = u :: us ∧ m.Same t u ∧ m.Lead ts us := by
  cases h with
  | last heof => exact absurd heof hne
  | cons ht _ hrest => exact ⟨_, _, rfl, ht, hrest⟩

theorem Lead.of_eof {t : Token} {ts ts' : List Token} (h : m.Lead (t :: ts) ts') (heof : t.kind = .eof) :
    ts' = m.follow := by
  cases h with
  | last => rfl
  | cons _ hne => exact absurd heof hne

theorem Lead.endsOnce {ts ts' : List Token} (h : m.Lead ts ts') : EndsOnce ts := by
  induction h with
  | last heof => exact ⟨[], _, rfl, heof, by simp⟩
  | @cons t t' ts ts' ht hne hrest ih =>
    obtain ⟨us, e, rfl, he, hus⟩ := ih
    refine ⟨t :: us, e, rfl, he, fun u hu => ?_⟩
    rcases List.mem_cons.mp hu with rfl | hu
    · exact hne
    · exact hus u hu

theorem Lead.length_le {ts ts' : List Token} (h : m.Lead ts ts') : ts.length ≤ ts'.length := by
  induction h with
  | last => exact List.length_pos_iff.mpr m.follow_ne_nil
  | cons ht hne hrest ih => exact Nat.succ_le_succ ih

namespace Joined

variable {s s' : State}

theorem terminated (h : m.Joined s s') : s.Terminated := h.tokens.endsOnce

theorem split (h : m.Joined s s') (hne : s.token.kind ≠ .eof) :
    m.Same s.token s'.token ∧ m.Lead (s.rest.map Lexeme.token) (s'.rest.map Lexeme.token) := by
  obtain ⟨t', ts', htokens, ht, hrest⟩ := h.tokens.of_ne_eof hne
  obtain ⟨rfl, rfl⟩ := List.cons.inj htokens
  exact ⟨ht, hrest⟩

theorem token (h : m.Joined s s') (hne : s.token.kind ≠ .eof) : m.Same s.token s'.token := (h.split hne).1

theorem tokens_of_eof (h : m.Joined s s') (heof : s.token.kind = .eof) : s'.tokens = m.follow := h.tokens.of_eof heof

theorem length_rest_le (h : m.Joined s s') : s.rest.length ≤ s'.rest.length := by
  have := h.tokens.length_le
  simpa [State.tokens] using this

end Joined

end Seam

/-- A token without a fault only takes the place of the one before it. -/
theorem State.next_of_clean {s : State} {l : Lexeme} {ls : List Lexeme} (hrest : s.rest = l :: ls)
    (hclean : l.errors = []) : s.next = { s with token := l.token, rest := ls } := by
  rw [next, hrest]
  dsimp only
  rw [hclean, List.foldl_nil]

theorem Seam.Joined.next {m : Seam} {s s' : State} (h : m.Joined s s') (hne : s.token.kind ≠ .eof) :
    m.Joined s.next s'.next := by
  obtain ⟨-, hlead⟩ := h.split hne
  obtain ⟨hrest, hrest'⟩ := hlead.ne_nil
  obtain ⟨l, ls, hl⟩ := List.exists_cons_of_ne_nil (fun hnil => hrest (by rw [hnil, List.map_nil]) : s.rest ≠ [])
  obtain ⟨l', ls', hl'⟩ := List.exists_cons_of_ne_nil (fun hnil => hrest' (by rw [hnil, List.map_nil]) : s'.rest ≠ [])
  have hclean := h.clean
  have hclean' := h.clean'
  rw [hl] at hclean hlead
  rw [hl'] at hclean' hlead
  obtain ⟨herrors, hlater⟩ := List.forall_mem_cons.mp hclean
  obtain ⟨herrors', hlater'⟩ := List.forall_mem_cons.mp hclean'
  rw [State.next_of_clean hl herrors, State.next_of_clean hl' herrors']
  exact { h with tokens := hlead, clean := hlater, clean' := hlater' }

/-! ### Loops -/

variable {α α' β β' : Type}

theorem bind_congr_left {p q : Parser α} {f : α → Parser β} {s : State} (h : p s = q s) :
    (p >>= f) s = (q >>= f) s := by
  show EStateM.bind p f s = EStateM.bind q f s
  rw [EStateM.bind, EStateM.bind, h]

theorem bind_congr_right {p : Parser α} {f g : α → Parser β} {s : State}
    (h : ∀ a t, p s = .ok a t → f a t = g a t) : (p >>= f) s = (p >>= g) s := by
  show EStateM.bind p f s = EStateM.bind p g s
  rw [EStateM.bind, EStateM.bind]
  cases hp : p s with
  | ok a t => exact h a t hp
  | error e t => rfl

theorem commaLoop_of_stop {item : Parser α} {s : State} (h : s.token.kind ≠ .comma) (n : Nat) :
    commaLoop item n s = .ok [] s := (CommaRuns.stop h).ok

/-- The rest of a list may have any bound that is no less than the number of tokens left. -/
theorem commaLoop_enough {item : Parser α} (hitem : Built item) {s : State} {n k : Nat} (hs : s.Terminated)
    (hn : s.rest.length ≤ n) (hk : s.rest.length ≤ k) : commaLoop item n s = commaLoop item k s := by
  by_cases hcomma : s.token.kind = .comma
  · induction n generalizing s k with
    | zero =>
      have heof := hs.eof_of_length_le_zero hn
      rw [hcomma] at heof
      cases heof
    | succ n ih =>
      have hlt := hs.length_rest_next_lt (by rw [hcomma]; decide)
      obtain ⟨k, rfl⟩ : ∃ j, k = j + 1 := ⟨k - 1, by omega⟩
      rw [commaLoop, commaLoop, currentKind_bind, currentKind_bind, if_pos hcomma, if_pos hcomma, next_bind, next_bind]
      refine bind_congr_right fun a t ha => bind_congr_left ?_
      have hle := (Extends.of_ok hitem ha).length_rest_le
      have ht := ((Extends.next s).trans (.of_ok hitem ha)).terminated hs
      by_cases hmore : t.token.kind = .comma
      · exact ih ht (by omega) (by omega) hmore
      · rw [commaLoop_of_stop hmore, commaLoop_of_stop hmore]
  · rw [commaLoop_of_stop hcomma, commaLoop_of_stop hcomma]

theorem specs_enough {keyword : DeclKeyword} {index n k : Nat} {s : State} (hs : s.Terminated)
    (hn : s.rest.length ≤ n) (hk : s.rest.length ≤ k) : specs keyword index n s = specs keyword index k s := by
  by_cases hend : s.token.kind = .rparen ∨ s.token.kind = .eof
  · rw [specs_of_end hend, specs_of_end hend]
  · rw [not_or] at hend
    induction n generalizing s k index with
    | zero => exact absurd (hs.eof_of_length_le_zero hn) hend.2
    | succ n ih =>
      have hpos := List.length_pos_iff.mpr (hs.rest_ne_nil hend.2)
      obtain ⟨k, rfl⟩ : ∃ j, k = j + 1 := ⟨k - 1, by omega⟩
      rw [specs_succ hend.1 hend.2, specs_succ hend.1 hend.2]
      refine bind_congr_right fun sp t hsp => bind_congr_left ?_
      have hlt := takesAt_spec hs hend.2 keyword index _ _ hsp
      have ht := (Extends.of_ok (.spec keyword index) hsp).terminated hs
      by_cases htend : t.token.kind = .rparen ∨ t.token.kind = .eof
      · rw [specs_of_end htend, specs_of_end htend]
      · exact ih ht (by omega) (by omega) (not_or.mp htend)

/-! ### Parsers -/

/-- No fault has been kept and, if the text is still being read, its end has not been reached. -/
def State.Live (inside : Bool) (s : State) : Prop := s.findings = [] ∧ (inside = true → s.token.kind ≠ .eof)

/-- Every value corresponds to some value. -/
class Total {α α' : Type} (V : α → α' → Prop) : Prop where
  exists_rel : ∀ a, ∃ a', V a a'

instance : Total (Eq : α → α → Prop) := ⟨fun a => ⟨a, rfl⟩⟩

instance {V : α → α' → Prop} [hV : Total V] : Total (List.Forall₂ V) where
  exists_rel as := by
    induction as with
    | nil => exact ⟨[], .nil⟩
    | cons a as ih =>
      obtain ⟨a', ha⟩ := hV.exists_rel a
      obtain ⟨as', has⟩ := ih
      exact ⟨a' :: as', .cons ha has⟩

instance {V : α → α' → Prop} [hV : Total V] : Total (Option.Rel V) where
  exists_rel a := by
    cases a with
    | none => exact ⟨none, .none⟩
    | some a =>
      obtain ⟨a', ha⟩ := hV.exists_rel a
      exact ⟨some a', .some ha⟩

/-- Where `p` ends in a live state, it has started in one, and `p'` does the same from a joined state, with a value
that is related by `V`. `b` and `c` say whether the start and the end lie inside the text. -/
structure Mimics (m : Seam) (b c : Bool) (V : α → α' → Prop) (p : Parser α) (p' : Parser α') : Prop where
  back {s t : State} {a : α} : p s = .ok a t → s.Terminated → t.Terminated ∧ (t.Live c → s.Live b)
  run {s t s' : State} {a : α} : p s = .ok a t → t.Live c → m.Joined s s' →
    ∃ a' t', p' s' = .ok a' t' ∧ V a a' ∧ m.Joined t t'

/-- No parser takes a fault back or goes back from the end of the text. -/
theorem Built.back {p : Parser α} (hp : Built p) {b : Bool} {s t : State} {a : α} (h : p s = .ok a t)
    (hs : s.Terminated) : t.Terminated ∧ (t.Live b → s.Live b) := by
  have hextends := Extends.of_ok hp h
  refine ⟨hextends.terminated hs, fun hlive => ⟨hextends.clean hlive.1, fun hb heof => hlive.2 hb ?_⟩⟩
  have hsuffix := hextends.tokens
  rw [hs.tokens_eof heof] at hsuffix
  rcases List.suffix_cons_iff.mp hsuffix with hsame | hnil
  · rw [(List.cons.inj hsame).1]
    exact heof
  · exact absurd (List.suffix_nil.mp hnil) t.tokens_ne_nil

namespace Mimics

variable {m : Seam} {b c d : Bool} {V : α → α' → Prop} {W : β → β' → Prop} {p : Parser α} {p' : Parser α'}

theorem pure {a : α} {a' : α'} (h : V a a') : Mimics m b b V (Pure.pure a) (Pure.pure a') where
  back := Built.back (.pure a)
  run hrun _ hs := by
    obtain ⟨rfl, rfl⟩ := pure_eq_ok.mp hrun
    exact ⟨a', _, rfl, h, hs⟩

theorem bind [hV : Total V] {f : α → Parser β} {f' : α' → Parser β'} (hp : Mimics m b c V p p')
    (hf : ∀ a a', V a a' → Mimics m c d W (f a) (f' a')) : Mimics m b d W (p >>= f) (p' >>= f') where
  back hrun hs := by
    obtain ⟨a, u, ha, hrun⟩ := bind_eq_ok.mp hrun
    obtain ⟨a', haa'⟩ := hV.exists_rel a
    obtain ⟨hu, hback⟩ := hp.back ha hs
    obtain ⟨ht, hback'⟩ := (hf a a' haa').back hrun hu
    exact ⟨ht, fun hlive => hback (hback' hlive)⟩
  run hrun hlive hs := by
    obtain ⟨a, u, ha, hrun⟩ := bind_eq_ok.mp hrun
    -- that the middle is live is known from the end, whatever value goes on there
    obtain ⟨a₀, haa₀⟩ := hV.exists_rel a
    obtain ⟨hu, -⟩ := hp.back ha hs.terminated
    obtain ⟨-, hback⟩ := (hf a a₀ haa₀).back hrun hu
    obtain ⟨a', u', ha', haa', hjoined⟩ := hp.run ha (hback hlive) hs
    obtain ⟨b', t', hb', hbb', ht⟩ := (hf a a' haa').run hrun hlive hjoined
    exact ⟨b', t', (bind_of_ok ha').trans hb', hbb', ht⟩

theorem ite {P : Prop} [Decidable P] {q : Parser α} {q' : Parser α'} (hp : P → Mimics m b c V p p')
    (hq : ¬ P → Mimics m b c V q q') : Mimics m b c V (if P then p else q) (if P then p' else q') := by
  by_cases h : P
  · rw [if_pos h, if_pos h]
    exact hp h
  · rw [if_neg h, if_neg h]
    exact hq h

/-- What always reports a fault is never the way of a parse without one. -/
theorem dead (hp : Built p) (h : ∀ s a t, p s = .ok a t → t.findings ≠ []) : Mimics m b c V p p' where
  back hrun hs := ⟨(Built.back (b := c) hp hrun hs).1, fun hlive => absurd hlive.1 (h _ _ _ hrun)⟩
  run hrun hlive _ := absurd hlive.1 (h _ _ _ hrun)

/-- What is looked up in the state, and goes on from there. -/
theorem look {f : State → α} {f' : State → α'} (hf : Built (look f))
    (h : ∀ s s', m.Joined s s' → s.Live b → V (f s) (f' s')) : Mimics m b b V (look f) (Parse.look f') where
  back := Built.back hf
  run {s t s' a} hrun hlive hs := by
    have hrun' : EStateM.Result.ok (f s) s = .ok a t := hrun
    obtain ⟨rfl, rfl⟩ := EStateM.Result.ok.inj hrun'
    exact ⟨f' s', s', rfl, h s s' hs hlive, hs⟩

/-- A change of the state. -/
theorem modify {f f' : State → State} (hf : Built (modify f : Parser PUnit))
    (h : ∀ s s', m.Joined s s' → s.Live b → m.Joined (f s) (f' s')) :
    Mimics m b b Eq (modify f : Parser PUnit) (modify f' : Parser PUnit) where
  back := Built.back hf
  run {s t s' a} hrun hlive hs := by
    have hstart := (Built.back (b := b) hf hrun hs.terminated).2 hlive
    obtain ⟨-, rfl⟩ : PUnit.unit = a ∧ f s = t := EStateM.Result.ok.inj hrun
    exact ⟨⟨⟩, f' s', rfl, rfl, h s s' hs hstart⟩

theorem keepDepth (hp : Mimics m true true V p p') :
    Mimics m true true V (keepDepth p) (keepDepth p') where
  back hrun hs := by
    obtain ⟨t, ht, rfl⟩ := keepDepth_eq_ok.mp hrun
    have hback := hp.back ht hs
    exact hback
  run hrun hlive hs := by
    obtain ⟨t, ht, rfl⟩ := keepDepth_eq_ok.mp hrun
    obtain ⟨a', t', ht', haa', hjoined⟩ := hp.run ht hlive hs
    exact ⟨a', _, keepDepth_eq_ok.mpr ⟨t', ht', rfl⟩, haa', { hjoined with depth := hs.depth }⟩

theorem withRhs (inRhs : Bool) (hp : Mimics m true true V p p') :
    Mimics m true true V (withRhs inRhs p) (withRhs inRhs p') where
  back {s _ _} hrun hs := by
    obtain ⟨t, ht, rfl⟩ := withRhs_eq_ok.mp hrun
    have hback := hp.back ht (show State.Terminated { s with inRhs } from hs)
    exact hback
  run {s _ s' _} hrun hlive hs := by
    obtain ⟨t, ht, rfl⟩ := withRhs_eq_ok.mp hrun
    have hstart : m.Joined { s with inRhs } { s' with inRhs } := { hs with inRhs := rfl }
    obtain ⟨a', t', ht', haa', hjoined⟩ := hp.run ht hlive hstart
    exact ⟨a', _, withRhs_eq_ok.mpr ⟨t', ht', rfl⟩, haa', { hjoined with inRhs := hs.inRhs }⟩

theorem mapM [Total W] {R : α → α' → Prop} {f : α → Parser β} {f' : α' → Parser β'} {as : List α} {as' : List α'}
    (has : List.Forall₂ R as as') (hf : ∀ a a', R a a' → Mimics m b b W (f a) (f' a')) :
    Mimics m b b (List.Forall₂ W) (as.mapM f) (as'.mapM f') := by
  induction has with
  | nil =>
    rw [List.mapM_nil, List.mapM_nil]
    exact .pure .nil
  | cons ha has ih =>
    rw [List.mapM_cons, List.mapM_cons]
    exact .bind (hf _ _ ha) fun _ _ hb => .bind ih fun _ _ hbs => .pure (.cons hb hbs)

/-- A loop that is bounded by the number of tokens left, where any bound from there on is enough. -/
theorem bounded {V : α → α → Prop} [Total V] {loop : Nat → Parser α} {f : α → Parser β} {f' : α → Parser β'}
    (henough : ∀ {s : State} {n k : Nat}, s.Terminated → s.rest.length ≤ n → s.rest.length ≤ k → loop n s = loop k s)
    (hloop : ∀ n, Mimics m true true V (loop n) (loop n)) (hf : ∀ a a', V a a' → Mimics m true c W (f a) (f' a')) :
    Mimics m true c W (get >>= fun s => loop s.rest.length >>= f) (get >>= fun s => loop s.rest.length >>= f') where
  back {s _ _} hrun hs := (bind (hloop s.rest.length) hf).back hrun hs
  run {s t s' b} hrun hlive hs := by
    rw [get_bind] at hrun ⊢
    have hsame : (loop s.rest.length >>= f) s = (loop s'.rest.length >>= f) s :=
      bind_congr_left (henough hs.terminated (Nat.le_refl _) hs.length_rest_le)
    rw [hsame] at hrun
    exact (bind (hloop s'.rest.length) hf).run hrun hlive hs

end Mimics

end Parse

end RoseLang
