/-!
# Positions and spans

A position is a place in one common space for all source files: place 0 means no position, and the
last place is `Pos.last`. Adding a length stops at the last place, so the end of a node never leaves
the space. A span reaches from its start up to, but not including, its end.
-/

namespace RoseLang

structure Pos where
  index : Nat
  deriving DecidableEq, Repr, Inhabited

namespace Pos

/-- The absent position. -/
def none : Pos := ⟨0⟩

/-- The last place of the position space. -/
def last : Pos := ⟨4294967295⟩

def isValid (p : Pos) : Bool := p.index ≠ 0

/-- The position `n` bytes further on, or the last one if there is none. -/
def advance (p : Pos) (n : Nat) : Pos := ⟨min (p.index + n) last.index⟩

instance : ToString Pos := ⟨fun p => toString p.index⟩

@[simp] theorem index_advance (p : Pos) (n : Nat) :
    (p.advance n).index = min (p.index + n) 4294967295 := rfl

theorem advance_advance (p : Pos) (m n : Nat) : (p.advance m).advance n = p.advance (m + n) := by
  simp only [advance, last, mk.injEq]
  omega

end Pos

structure Span where
  start : Pos
  stop : Pos
  deriving DecidableEq, Repr, Inhabited

namespace Span

/-- The number of bytes covered; none if the span ends before it starts. -/
def length (s : Span) : Nat := s.stop.index - s.start.index

def isEmpty (s : Span) : Bool := s.length = 0

/-- The span of `n` bytes at `p`, at least one byte wide. -/
def ofLength (p : Pos) (n : Nat) : Span := ⟨p, p.advance (max n 1)⟩

end Span

end RoseLang
