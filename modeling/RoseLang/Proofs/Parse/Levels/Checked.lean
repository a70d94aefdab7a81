import RoseLang.Proofs.Parse.Levels.Context

/-!
# Levels are entered and left in pairs

Expressions and types are parsed here once more, with a check wherever the depth is changed or the room is relied on. A
level is entered only below the limit and left only if there is one, setting the depth back never raises it, and the room
is the number of levels that may still be entered. A run whose check fails is halted. `Keeps` says that none ever is: the
parsers with checks do what those without do, and set back what they change.
-/

namespace RoseLang.Parse

variable {α β : Type}

/-- Why a run with checks ends early. -/
inductive Halt where
  | stopped (why : Stop)
  | unbalanced

/-- A parser with checks. -/
abbrev Checked := EStateM Halt State

namespace Checked

/-- The parser itself, without any check. -/
def of (p : Parser α) : Checked α := fun s =>
  match p s with
  | .ok a t => .ok a t
  | .error why t => .error (.stopped why) t

instance : MonadLift Parser Checked := ⟨of⟩

/-- Halts unless the depth is as it should be. -/
def check (holds : Nat → Bool) : Checked Unit := do
  if holds (← get).depth then return else throw .unbalanced

/-- The room that is relied on is what is left up to the limit. -/
def checkRoom (room : Nat) : Checked Unit := check (room = maxDepth - ·)

def enter : Checked Unit := do
  check (· < maxDepth)
  Parse.enter

def leave : Checked Unit := do
  check (0 < ·)
  Parse.leave

def keepDepth (c : Checked α) : Checked α := do
  let depth := (← get).depth
  let a ← c
  check (depth ≤ ·)
  modify fun s => { s with depth }
  return a

def withRhs (inRhs : Bool) (c : Checked α) : Checked α := do
  let old := (← get).inRhs
  modify fun s => { s with inRhs }
  let a ← c
  modify fun s => { s with inRhs := old }
  return a

mutual

def unary (room : Nat) (lhs : Bool) : Checked Expr := do
  checkRoom room
  let t ← currentToken
  match UnaryOp.ofToken? t.kind with
  | some op =>
    match room with
    | 0 => tooDeep
    | room + 1 =>
      enter
      next
      let operand ← unary room false
      leave
      return .unary (← freshId) op t.pos operand
  | none =>
    if t.kind = .lparen then
      match room with
      | 0 => tooDeep
      | room + 1 =>
        enter
        next
        let inner ← withRhs true <| keepDepth do
          let first ← unary room false
          chain room false 1 first
        leave
        let rparen ← expect .rparen
        return .paren (← freshId) t.pos inner rparen
    else leaf lhs

def chain (room : Nat) (lhs : Bool) (floor : Nat) (left : Expr) : Checked Expr := do
  checkRoom room
  match ← operator? with
  | none => return left
  | some op =>
    if op.precedence < floor then return left
    else
      let opPos ← expect op.token
      let left ← resolveIf lhs left
      match room with
      | 0 =>
        let right ← tooDeep
        return .binary (← freshId) op opPos left right
      | room + 1 =>
        enter
        let right ← keepDepth do
          let first ← unary room false
          chain room false op.rightFloor first
        let joined := Expr.binary (← freshId) op opPos left right
        chain room false floor joined

end

def expr (lhs : Bool) : Checked Expr := do
  let room ← roomLeft
  keepDepth do
    let first ← unary room lhs
    chain room lhs 1 first

def moreExprs (lhs : Bool) : Nat → Checked (List Expr)
  | 0 => return []
  | n + 1 => do
    if (← currentKind) = .comma then
      next
      let e ← expr lhs
      return e :: (← moreExprs lhs n)
    else return []

def exprList (lhs : Bool) : Checked (Expr × List Expr) := do
  let first ← expr lhs
  let others ← moreExprs lhs (← get).rest.length
  return (first, others)

def lhsList : Checked (Expr × List Expr) := do
  let (first, others) ← withRhs false (exprList true)
  if (← currentKind) = .colon then return (first, others)
  else return (← resolveExpr first, ← (others.mapM resolveExpr : Parser (List Expr)))

def rhsList : Checked (List Expr) := do
  let (first, others) ← withRhs true (exprList false)
  return first :: others

def bareType? (room : Nat) : Checked (Option Expr) := do
  checkRoom room
  let t ← currentToken
  if t.kind = .ident then
    let name ← ident
    return some (.ident (← freshId) name)
  else if t.kind = .lparen then
    match room with
    | 0 => return some (← tooDeep)
    | room + 1 =>
      enter
      next
      let found ← bareType? room
      let inner ← typeOrSkipped found
      leave
      let rparen ← expect .rparen
      return some (.paren (← freshId) t.pos inner rparen)
  else return none

def type? : Checked (Option Expr) := do
  match ← bareType? (← roomLeft) with
  | some type => return some (← resolveType type)
  | none => return none

end Checked

/-! ### Runs that are never halted -/

namespace Checked

variable {c : Checked α} {f : α → Checked β} {p : Parser α} {s t : State} {a : α}

theorem of_ok (h : p s = .ok a t) : of p s = .ok a t := by rw [of, h]

theorem of_error {why : Stop} (h : p s = .error why t) : of p s = .error (.stopped why) t := by rw [of, h]

theorem bind_of_ok (h : c s = .ok a t) : (c >>= f) s = f a t := by
  show EStateM.bind c f s = _
  rw [EStateM.bind, h]

theorem bind_of_error {e : Halt} (h : c s = .error e t) : (c >>= f) s = .error e t := by
  show EStateM.bind c f s = _
  rw [EStateM.bind, h]

theorem get_bind (f : State → Checked β) : ((get : Checked State) >>= f) s = f s s := rfl

theorem modify_bind (g : State → State) (f : PUnit → Checked β) :
    ((modify g : Checked PUnit) >>= f) s = f ⟨⟩ (g s) := rfl

theorem check_of_holds {holds : Nat → Bool} (h : holds s.depth = true) : check holds s = .ok () s := by
  show (if holds s.depth then Pure.pure () else throw .unbalanced : Checked Unit) s = _
  rw [if_pos h]
  rfl

end Checked

/-- From the depth `d` on no check of `c` fails: it does what `p` does. Where `p` comes to its end, the depth is one of
`Q`, and the side is the one on which it started. -/
def Keeps (d : Nat) (Q : Nat → Prop) (c : Checked α) (p : Parser α) : Prop :=
  ∀ s : State, s.depth = d → c s = Checked.of p s ∧ ∀ a t, p s = .ok a t → Q t.depth ∧ t.inRhs = s.inRhs

namespace Keeps

variable {d d' room : Nat} {Q R : Nat → Prop} {c : Checked α} {p : Parser α} {f : α → Checked β} {g : α → Parser β}

theorem pure (a : α) : Keeps d (· = d) (Pure.pure a) (Pure.pure a) := by
  intro s hs
  refine ⟨rfl, fun b t h => ?_⟩
  obtain ⟨-, rfl⟩ := pure_eq_ok.mp h
  exact ⟨hs, rfl⟩

theorem bind (h : Keeps d (· = d') c p) (hf : ∀ a, Keeps d' Q (f a) (g a)) : Keeps d Q (c >>= f) (p >>= g) := by
  intro s hs
  obtain ⟨hsame, hends⟩ := h s hs
  cases hp : p s with
  | ok a t =>
    obtain ⟨hdepth, hside⟩ := hends a t hp
    obtain ⟨hsame', hends'⟩ := hf a t hdepth
    have hrun : (p >>= g) s = g a t := Parse.bind_of_ok hp
    constructor
    · rw [Checked.bind_of_ok (hsame.trans (Checked.of_ok hp)), hsame', Checked.of, Checked.of, hrun]
    · intro b u hb
      obtain ⟨hQ, hside'⟩ := hends' b u (hrun ▸ hb)
      exact ⟨hQ, hside'.trans hside⟩
  | error why t =>
    have hstop : (p >>= g) s = .error why t := bind_eq_error.mpr (.inl hp)
    constructor
    · rw [Checked.bind_of_error (hsame.trans (Checked.of_error hp)), Checked.of_error hstop]
    · intro b u hb
      rw [hstop] at hb
      cases hb

theorem weaken (h : Keeps d Q c p) (hQ : ∀ n, Q n → R n) : Keeps d R c p := by
  intro s hs
  obtain ⟨hsame, hends⟩ := h s hs
  exact ⟨hsame, fun a t hrun => (hends a t hrun).imp_left (hQ _)⟩

/-- A parser without checks that leaves the context alone. -/
theorem lift (h : Restores p) : Keeps d (· = d) (liftM p) p := by
  intro s hs
  refine ⟨rfl, fun a t hrun => ?_⟩
  obtain ⟨hdepth, hside⟩ := h s a t hrun
  exact ⟨hdepth.trans hs, hside⟩

theorem check {holds : Nat → Bool} (h : holds d = true) (hrest : Keeps d Q c p) :
    Keeps d Q (Checked.check holds >>= fun _ => c) p := by
  intro s hs
  rw [Checked.bind_of_ok (Checked.check_of_holds (hs ▸ h))]
  exact hrest s hs

theorem checkRoom (h : room = maxDepth - d) (hrest : Keeps d Q c p) :
    Keeps d Q (Checked.checkRoom room >>= fun _ => c) p :=
  check (decide_eq_true h) hrest

/-- One level more. -/
theorem enter (h : d < maxDepth) : Keeps d (· = d + 1) Checked.enter Parse.enter := by
  refine check (decide_eq_true h) fun s hs => ⟨rfl, fun _ t hrun => ?_⟩
  cases hrun
  exact ⟨congrArg (· + 1) hs, rfl⟩

/-- One level less, which there has to be. -/
theorem leave : Keeps (d + 1) (· = d) Checked.leave Parse.leave := by
  refine check (decide_eq_true d.succ_pos) fun s hs => ⟨rfl, fun _ t hrun => ?_⟩
  cases hrun
  exact ⟨congrArg (· - 1) hs, rfl⟩

theorem keepDepth (h : Keeps d (d ≤ ·) c p) : Keeps d (· = d) (Checked.keepDepth c) (Parse.keepDepth p) := by
  intro s hs
  obtain ⟨hsame, hends⟩ := h s hs
  constructor
  · rw [Checked.keepDepth, Checked.get_bind]
    cases hp : p s with
    | ok a t =>
      -- `p` has left no level that it had not entered, which is what the check asks for.
      have hle : s.depth ≤ t.depth := hs ▸ (hends a t hp).1
      rw [Checked.of_ok (keepDepth_eq_ok.mpr ⟨t, hp, rfl⟩), Checked.bind_of_ok (hsame.trans (Checked.of_ok hp)),
        Checked.bind_of_ok (Checked.check_of_holds (decide_eq_true hle))]
      rfl
    | error why t =>
      have hstop : Parse.keepDepth p s = .error why t := by
        rw [Parse.keepDepth, Parse.get_bind]
        exact bind_eq_error.mpr (.inl hp)
      rw [Checked.of_error hstop, Checked.bind_of_error (hsame.trans (Checked.of_error hp))]
  · intro a t hrun
    obtain ⟨u, hu, rfl⟩ := keepDepth_eq_ok.mp hrun
    exact ⟨hs, (hends a u hu).2⟩

theorem withRhs (inRhs : Bool) (h : Keeps d Q c p) :
    Keeps d Q (Checked.withRhs inRhs c) (Parse.withRhs inRhs p) := by
  intro s hs
  obtain ⟨hsame, hends⟩ := h { s with inRhs } hs
  constructor
  · rw [Checked.withRhs, Checked.get_bind, Checked.modify_bind]
    cases hp : p { s with inRhs } with
    | ok a t =>
      rw [Checked.of_ok (withRhs_eq_ok.mpr ⟨t, hp, rfl⟩), Checked.bind_of_ok (hsame.trans (Checked.of_ok hp))]
      rfl
    | error why t =>
      have hstop : Parse.withRhs inRhs p s = .error why t := by
        rw [Parse.withRhs, Parse.get_bind, Parse.modify_bind]
        exact bind_eq_error.mpr (.inl hp)
      rw [Checked.of_error hstop, Checked.bind_of_error (hsame.trans (Checked.of_error hp))]
  · intro a t hrun
    obtain ⟨u, hu, rfl⟩ := withRhs_eq_ok.mp hrun
    exact ⟨(hends a u hu).1, rfl⟩

theorem roomLeft {f : Nat → Checked β} {g : Nat → Parser β} (h : Keeps d Q (f (maxDepth - d)) (g (maxDepth - d))) :
    Keeps d Q (liftM Parse.roomLeft >>= f) (Parse.roomLeft >>= g) := by
  rintro s rfl
  exact h s rfl

theorem get {f : State → Checked β} {g : State → Parser β} (h : ∀ s, Keeps d Q (f s) (g s)) :
    Keeps d Q (MonadState.get >>= f) (MonadState.get >>= g) :=
  fun s hs => h s s hs

theorem climbs (h : Keeps d (· = d) c p) : Keeps d (d ≤ ·) c p := h.weaken fun _ => Nat.le_of_eq ∘ Eq.symm

/-! ### Expressions -/

/-- The chain inside parentheses or to the right of an operator. All levels that it enters are left together. -/
theorem operand {lhs : Bool} {floor : Nat} (hunary : Keeps d (· = d) (Checked.unary room lhs) (unary room lhs))
    (hchain : ∀ left, Keeps d (d ≤ ·) (Checked.chain room lhs floor left) (chain room lhs floor left)) :
    Keeps d (· = d)
      (Checked.keepDepth do
        let first ← Checked.unary room lhs
        Checked.chain room lhs floor first)
      (Parse.keepDepth do
        let first ← unary room lhs
        chain room lhs floor first) :=
  .keepDepth (.bind hunary hchain)

/-- Operands and chains call each other one level further down, so one induction covers both. -/
theorem unary_chain (hroom : room = maxDepth - d) :
    (∀ lhs, Keeps d (· = d) (Checked.unary room lhs) (unary room lhs)) ∧
      ∀ lhs floor left, Keeps d (d ≤ ·) (Checked.chain room lhs floor left) (chain room lhs floor left) := by
  -- Each level entered takes one of the room, so the depth goes up as the room goes down.
  induction room generalizing d with
  | zero =>
    constructor
    · intro lhs
      rw [Checked.unary, unary]
      refine .checkRoom hroom (.bind (.lift .currentToken) fun t => ?_)
      cases UnaryOp.ofToken? t.kind with
      | some op => exact .lift .tooDeep
      | none =>
        dsimp only
        split
        · exact .lift .tooDeep
        · exact .lift (.leaf lhs)
    · intro lhs floor left
      rw [Checked.chain, chain]
      refine .checkRoom hroom (.bind (.lift .operator?) fun op? => ?_)
      cases op? with
      | none => exact (Keeps.pure left).climbs
      | some op =>
        dsimp only
        split
        · exact (Keeps.pure left).climbs
        · exact .bind (.lift (.expect _)) fun _ => .bind (.lift (.resolveIf _ _)) fun _ =>
            .bind (.lift .tooDeep) fun _ => .bind (.lift .freshId) fun _ => (Keeps.pure _).climbs
  | succ room ih =>
    have hlt : d < maxDepth := by omega
    obtain ⟨hunary, hchain⟩ := ih (d := d + 1) (by omega)
    constructor
    · intro lhs
      rw [Checked.unary, unary]
      refine .checkRoom hroom (.bind (.lift .currentToken) fun t => ?_)
      cases UnaryOp.ofToken? t.kind with
      | some op =>
        exact .bind (.enter hlt) fun _ => .bind (.lift .next) fun _ => .bind (hunary false) fun _ =>
          .bind .leave fun _ => .bind (.lift .freshId) fun _ => .pure _
      | none =>
        dsimp only
        split
        · exact .bind (.enter hlt) fun _ => .bind (.lift .next) fun _ =>
            .bind (.withRhs _ (.operand (hunary _) (hchain _ _))) fun _ => .bind .leave fun _ =>
              .bind (.lift (.expect _)) fun _ => .bind (.lift .freshId) fun _ => .pure _
        · exact .lift (.leaf lhs)
    · intro lhs floor left
      rw [Checked.chain, chain]
      refine .checkRoom hroom (.bind (.lift .operator?) fun op? => ?_)
      cases op? with
      | none => exact (Keeps.pure left).climbs
      | some op =>
        dsimp only
        split
        · exact (Keeps.pure left).climbs
        · refine .bind (.lift (.expect _)) fun _ => .bind (.lift (.resolveIf _ _)) fun _ =>
            .bind (.enter hlt) fun _ => .bind (.operand (hunary _) (hchain _ _)) fun _ =>
              .bind (.lift .freshId) fun _ => ?_
          exact (hchain _ _ _).weaken fun n hn => Nat.le_of_succ_le hn

theorem unary (hroom : room = maxDepth - d) (lhs : Bool) :
    Keeps d (· = d) (Checked.unary room lhs) (Parse.unary room lhs) := (unary_chain hroom).1 lhs

theorem expr (lhs : Bool) : Keeps d (· = d) (Checked.expr lhs) (Parse.expr lhs) :=
  .roomLeft (.operand ((unary_chain rfl).1 lhs) ((unary_chain rfl).2 lhs 1))

theorem moreExprs (lhs : Bool) (n : Nat) : Keeps d (· = d) (Checked.moreExprs lhs n) (Parse.moreExprs lhs n) := by
  induction n with
  | zero => exact .pure []
  | succ n ih =>
    refine .bind (.lift .currentKind) fun kind => ?_
    split
    · exact .bind (.lift .next) fun _ => .bind (.expr lhs) fun _ => .bind ih fun _ => .pure _
    · exact .pure []

theorem exprList (lhs : Bool) : Keeps d (· = d) (Checked.exprList lhs) (Parse.exprList lhs) :=
  .bind (.expr lhs) fun _ => .get fun _ => .bind (.moreExprs lhs _) fun _ => .pure _

theorem lhsList : Keeps d (· = d) Checked.lhsList Parse.lhsList := by
  refine .bind (.withRhs _ (.exprList _)) fun list => .bind (.lift .currentKind) fun kind => ?_
  split
  · exact .pure _
  · exact .bind (.lift (.resolveExpr _)) fun _ => .bind (.lift (.mapM .resolveExpr _)) fun _ => .pure _

theorem rhsList : Keeps d (· = d) Checked.rhsList Parse.rhsList :=
  .bind (.withRhs _ (.exprList _)) fun _ => .pure _

/-! ### Types -/

theorem bareType? (hroom : room = maxDepth - d) :
    Keeps d (· = d) (Checked.bareType? room) (Parse.bareType? room) := by
  induction room generalizing d with
  | zero =>
    refine .checkRoom hroom (.bind (.lift .currentToken) fun t => ?_)
    split
    · exact .bind (.lift .ident) fun _ => .bind (.lift .freshId) fun _ => .pure _
    · split
      · exact .bind (.lift .tooDeep) fun _ => .pure _
      · exact .pure none
  | succ room ih =>
    refine .checkRoom hroom (.bind (.lift .currentToken) fun t => ?_)
    split
    · exact .bind (.lift .ident) fun _ => .bind (.lift .freshId) fun _ => .pure _
    · split
      · exact .bind (.enter (by omega)) fun _ => .bind (.lift .next) fun _ => .bind (ih (by omega)) fun _ =>
          .bind (.lift (.typeOrSkipped _)) fun _ => .bind .leave fun _ => .bind (.lift (.expect _)) fun _ =>
            .bind (.lift .freshId) fun _ => .pure _
      · exact .pure none

theorem type? : Keeps d (· = d) Checked.type? Parse.type? := by
  refine .roomLeft (.bind (.bareType? rfl) fun found => ?_)
  cases found with
  | some type => exact .bind (.lift (.resolveType _)) fun _ => .pure _
  | none => exact .pure none

end Keeps

end RoseLang.Parse
