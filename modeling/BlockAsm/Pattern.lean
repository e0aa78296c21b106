import BlockAsm.Text.Digit
import BlockAsm.Text.Word
import BlockAsm.Text.Blank

/-!
Patterns over text and their greedy, leftmost matching. A pattern that starts at a point of a text can
end at several points, and `ends` lists them in the order of preference: the first alternative before
the second, one more repetition before none. Each point is listed once, where it is preferred most,
because how a match goes on depends only on where it stands. So there are never more ends than
characters, however many ways lead to them.

Erasing a pattern removes, from left to right, the preferred non-empty match at each point that has
one.
-/

namespace BlockAsm

inductive ClassMember where
  | range (low high : Char)
  | digit
  | word
  | blank
  | outside (m : ClassMember)
  deriving DecidableEq, Repr

def ClassMember.has : ClassMember → Char → Bool
  | .range low high, c => decide (low ≤ c) && decide (c ≤ high)
  | .digit, c => Text.isDigit c
  | .word, c => Text.isWord c
  | .blank, c => Text.isBlank c
  | .outside m, c => !m.has c

structure CharClass where
  negated : Bool
  members : List ClassMember
  deriving DecidableEq, Repr

namespace CharClass

def has (k : CharClass) (c : Char) : Bool := (k.members.any (·.has c)) != k.negated

def single (c : Char) : CharClass := ⟨false, [.range c c]⟩

/-- Everything but the line feed. -/
def any : CharClass := ⟨true, [.range '\n' '\n']⟩

theorem has_single (c d : Char) : (single c).has d = decide (d = c) := by
  by_cases h : d = c
  · simp [single, has, ClassMember.has, h]
  · have : ¬(c ≤ d ∧ d ≤ c) := fun ⟨h₁, h₂⟩ => h (Char.le_antisymm h₂ h₁)
    simp only [single, has, List.any_cons, List.any_nil, ClassMember.has, h]
    simpa using this

end CharClass

inductive Pattern where
  | empty
  | one (k : CharClass)
  | seq (p q : Pattern)
  | alt (p q : Pattern)
  /-- At least `least` repetitions, and at most `more` beyond them if a limit is given. -/
  | repeated (p : Pattern) (least : Nat) (more : Option Nat)
  | start
  /-- The end, or the place before a final line feed. -/
  | finish
  | veryEnd
  deriving DecidableEq, Repr, Inhabited

namespace Pattern

/-- A point in a text: what follows it, and how many characters that is. -/
structure Point where
  rest : List Char
  left : Nat
  deriving DecidableEq, Repr

namespace Point

def front (cs : List Char) : Point := ⟨cs, cs.length⟩

/-- The points that are left when those in `seen` and repetitions are dropped; a set of points is a
number with a bit for each. -/
def distinctFrom (seen : Nat) : List Point → List Point
  | [] => []
  | p :: rest =>
    if seen.testBit p.left then distinctFrom seen rest
    else p :: distinctFrom (seen ||| (1 <<< p.left)) rest

def distinct (ps : List Point) : List Point := distinctFrom 0 ps

end Point

/-- The points that characters of a class lead to from a point, itself included, the nearest first. -/
def reach (k : CharClass) (left : Nat) : List Char → List Point
  | [] => [⟨[], left⟩]
  | c :: rest => ⟨c :: rest, left⟩ :: (if k.has c then reach k (left - 1) rest else [])

def repeatExactly (step : Point → List Point) : Nat → List Point → List Point
  | 0, ps => ps
  | n + 1, ps =>
    if ps.isEmpty then [] else repeatExactly step n (Point.distinct (ps.flatMap step))

structure Search where
  /-- By the number of characters left: one more than the largest number of steps tried there. -/
  tried : Array Nat
  /-- The points found, the last one first. -/
  found : List Point

namespace Search

def begin (whole : Nat) : Search := ⟨Array.replicate (whole + 1) 0, []⟩

def add (s : Search) (p : Point) : Search := { s with found := p :: s.found }

/-- More steps than there are characters left are as good as that many. -/
def useful (steps : Nat) (p : Point) : Nat := if steps ≤ p.left then steps else p.left

def covers (s : Search) (steps : Nat) (p : Point) : Bool :=
  decide (useful steps p < s.tried.getD p.left 0)

def finish (s : Search) (steps : Nat) (p : Point) : Search :=
  ⟨s.tried.setIfInBounds p.left (useful steps p + 1), p :: s.found⟩

/-- As many steps as possible first, at most the given number; a step that moves nowhere is the last. -/
def visit (step : Point → List Point) : Nat → Point → Search → Search
  | 0, p, s => if s.covers 0 p then s else s.finish 0 p
  | n + 1, p, s =>
    if s.covers (n + 1) p then s
    else ((step p).foldl (fun s r => if r.left < p.left then visit step n r s else s.add r) s).finish
      (n + 1) p

end Search

def repeatUpTo (whole : Nat) (step : Point → List Point) (more : Option Nat) (ps : List Point) :
    List Point :=
  Point.distinct
    (ps.foldl (fun s p => Search.visit step (more.getD p.left) p s) (Search.begin whole)).found.reverse

/-- The points where a match that starts at a point can end, the preferred first; `whole` is the
length of the text. -/
def ends (whole : Nat) : Pattern → Point → List Point
  | .empty, p => [p]
  | .one k, p =>
    match p.rest with
    | c :: rest => if k.has c then [⟨rest, p.left - 1⟩] else []
    | [] => []
  | .seq a b, p => Point.distinct ((ends whole a p).flatMap (ends whole b))
  | .alt a b, p => Point.distinct (ends whole a p ++ ends whole b p)
  | .repeated (.one k) least more, p =>
    let far := (reach k p.left p.rest).drop least
    (match more with
      | some n => far.take (n + 1)
      | none => far).reverse
  | .repeated a least more, p =>
    repeatUpTo whole (ends whole a) more (repeatExactly (ends whole a) least [p])
  | .start, p => if p.left = whole then [p] else []
  | .finish, p => if p.rest = [] ∨ p.rest = ['\n'] then [p] else []
  | .veryEnd, p => if p.rest = [] then [p] else []

/-- Where the preferred match of at least one character ends. -/
def match? (a : Pattern) (whole : Nat) (p : Point) : Option Point :=
  (a.ends whole p).find? fun r => decide (r.left < p.left)

/-- What remains from a point on, in at most `steps` steps; each passes a character or a match. -/
def eraseFrom (a : Pattern) (whole : Nat) : Nat → Point → List Char
  | 0, _ => []
  | steps + 1, p =>
    match a.match? whole p with
    | some r => eraseFrom a whole steps r
    | none =>
      match p.rest with
      | [] => []
      | c :: rest => c :: eraseFrom a whole steps ⟨rest, p.left - 1⟩

def erase (a : Pattern) (s : String) : String :=
  let p := Point.front s.toList
  String.ofList (a.eraseFrom p.left p.left p)

end Pattern

end BlockAsm
