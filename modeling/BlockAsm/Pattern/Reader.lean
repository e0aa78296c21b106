import BlockAsm.Pattern

/-!
Reading a pattern from text. The text is first cut into tokens, a bracketed class or a counted
repetition being one token; the tokens are then folded into patterns with one open frame for each
group that has not been closed. Where no token can be cut the list ends with the reason, and the first
fault from the left is the one that counts.

The patterns are a part of a larger language. What belongs only to that one is told from what is malformed:
repetitions that are not greedy, groups that look around or set flags or have names, references to groups,
borders of words, and characters given by number or name.
-/

namespace BlockAsm.Pattern

inductive Fault where
  | malformed
  /-- A construct of the larger language. -/
  | unread
  | countTooLarge
  deriving DecidableEq, Repr

inductive Token where
  | one (k : CharClass)
  | anchor (p : Pattern)
  | repeated (least : Nat) (more : Option Nat)
  | opening
  | closing
  | bar
  | bad (f : Fault)
  deriving DecidableEq, Repr

def escapedChar? (c : Char) : Option Char :=
  match c with
  | 'n' => some '\n'
  | 't' => some '\t'
  | 'r' => some '\r'
  | 'f' => some '\x0c'
  | 'v' => some '\x0b'
  | 'a' => some '\x07'
  | c => if c.isAlphanum then none else some c

def escapedMember? (c : Char) : Option ClassMember :=
  match c with
  | 'd' => some .digit
  | 'w' => some .word
  | 's' => some .blank
  | 'D' => some (.outside .digit)
  | 'W' => some (.outside .word)
  | 'S' => some (.outside .blank)
  | c => (escapedChar? c).map fun c => .range c c

def escapeFault (c : Char) : Fault :=
  if c.isDigit || ['b', 'B', 'x', 'u', 'U', 'N'].contains c then .unread else .malformed

def rangeOf (low high : ClassMember) : Except Fault ClassMember :=
  match low, high with
  | .range a b, .range c d => if a = b ∧ c = d ∧ a ≤ c then .ok (.range a c) else .error .malformed
  | _, _ => .error .malformed

abbrev Rest (cs : List Char) := { r : List Char // r.length < cs.length }

def readMember (cs : List Char) : Except Fault (ClassMember × Rest cs) :=
  match cs with
  | [] => .error .malformed
  | '\\' :: [] => .error .malformed
  | '\\' :: e :: rest =>
    match escapedMember? e with
    | some m => .ok (m, ⟨rest, by simp only [List.length_cons]; omega⟩)
    | none => .error (escapeFault e)
  | c :: rest => .ok (.range c c, ⟨rest, by simp only [List.length_cons]; omega⟩)

/-- The members of a class up to its closing bracket; at the very front a bracket is a member. -/
def readMembers (front : Bool) (held : List ClassMember) (cs : List Char) :
    Except Fault (List ClassMember × Rest cs) :=
  match cs, front with
  | ']' :: rest, false => .ok (held.reverse, ⟨rest, by simp only [List.length_cons]; omega⟩)
  | cs, _ =>
    match readMember cs with
    | .error f => .error f
    | .ok (low, r) =>
      have hr := r.2
      match hm : r.1 with
      | '-' :: after =>
        have ha : after.length < cs.length := by rw [hm] at hr; simp only [List.length_cons] at hr; omega
        if after.head? = some ']' then
          match readMembers false (low :: held) r.1 with
          | .ok (ms, s) => .ok (ms, ⟨s.1, by have := s.2; omega⟩)
          | .error f => .error f
        else
          match readMember after with
          | .error f => .error f
          | .ok (high, s) =>
            have hs := s.2
            match rangeOf low high with
            | .error f => .error f
            | .ok m =>
              match readMembers false (m :: held) s.1 with
              | .ok (ms, t) => .ok (ms, ⟨t.1, by have := t.2; omega⟩)
              | .error f => .error f
      | _ =>
        match readMembers false (low :: held) r.1 with
        | .ok (ms, s) => .ok (ms, ⟨s.1, by have := s.2; omega⟩)
        | .error f => .error f
termination_by cs.length

def readClass (cs : List Char) : Except Fault (CharClass × Rest cs) :=
  match cs with
  | '^' :: rest =>
    (readMembers true [] rest).map fun (ms, r) =>
      (⟨true, ms⟩, ⟨r.1, by have := r.2; simp only [List.length_cons]; omega⟩)
  | cs => (readMembers true [] cs).map fun (ms, r) => (⟨false, ms⟩, r)

theorem length_dropDigits (cs : List Char) : (cs.dropWhile Char.isDigit).length ≤ cs.length :=
  (List.dropWhile_sublist _).length_le

inductive Count where
  | bounds (least : Nat) (most : Option Nat)
  /-- No count follows, so the brace stands for itself. -/
  | literal

def readCount (cs : List Char) : Count × { r : List Char // r.length ≤ cs.length } :=
  let low := cs.takeWhile Char.isDigit
  have h₁ := length_dropDigits cs
  match h₂ : cs.dropWhile Char.isDigit with
  | '\x7d' :: rest =>
    if low.isEmpty then (.literal, ⟨cs, Nat.le_refl _⟩)
    else
      let n := Text.digitsValue low
      (.bounds n (some n), ⟨rest, by rw [h₂] at h₁; simp only [List.length_cons] at h₁; omega⟩)
  | ',' :: after =>
    let high := after.takeWhile Char.isDigit
    have h₃ := length_dropDigits after
    match h₄ : after.dropWhile Char.isDigit with
    | '\x7d' :: rest =>
      (.bounds (Text.digitsValue low) (if high.isEmpty then none else some (Text.digitsValue high)),
        ⟨rest, by rw [h₂] at h₁; rw [h₄] at h₃; simp only [List.length_cons] at h₁ h₃; omega⟩)
    | _ => (.literal, ⟨cs, Nat.le_refl _⟩)
  | _ => (.literal, ⟨cs, Nat.le_refl _⟩)

def escapedToken? (c : Char) : Option Token :=
  if c = 'Z' then some (.anchor .veryEnd)
  else if c = 'A' then some (.anchor .start)
  else (escapedMember? c).map fun m => .one ⟨false, [m]⟩

def plainToken (c : Char) : Token :=
  match c with
  | '.' => .one .any
  | '^' => .anchor .start
  | '$' => .anchor .finish
  | '*' => .repeated 0 none
  | '+' => .repeated 1 none
  | '?' => .repeated 0 (some 1)
  | ')' => .closing
  | '|' => .bar
  | c => .one (.single c)

/-- Counts from this one on are too large. -/
def countLimit : Nat := 4294967295

def countToken (least : Nat) (most : Option Nat) : Token :=
  match most with
  | none => if countLimit ≤ least then .bad .countTooLarge else .repeated least none
  | some most =>
    if countLimit ≤ least ∨ countLimit ≤ most then .bad .countTooLarge
    else if least ≤ most then .repeated least (some (most - least))
    else .bad .malformed

def isRepetition (c : Char) : Bool := c == '*' || c == '+' || c == '?'

/-- A mark that follows a repetition and takes its greed away. -/
def isTempered (rest : List Char) : Bool := rest.head? == some '?' || rest.head? == some '+'

def groupFault (rest : List Char) : Fault :=
  match rest with
  | c :: _ => if "P<=!#>(aiLmsux-".toList.contains c then .unread else .malformed
  | [] => .malformed

def tokens (cs : List Char) : List Token :=
  match cs with
  | [] => []
  | '\\' :: [] => [.bad .malformed]
  | '\\' :: e :: rest =>
    match escapedToken? e with
    | some t => t :: tokens rest
    | none => [.bad (escapeFault e)]
  | '(' :: '?' :: ':' :: rest => .opening :: tokens rest
  | '(' :: '?' :: rest => [.bad (groupFault rest)]
  | '(' :: rest => .opening :: tokens rest
  | '[' :: rest =>
    match readClass rest with
    | .error f => [.bad f]
    | .ok (k, r) =>
      have := r.2
      .one k :: tokens r.1
  | '\x7b' :: rest =>
    match readCount rest with
    | (.literal, _) => .one (.single '\x7b') :: tokens rest
    | (.bounds least most, r) =>
      have := r.2
      countToken least most :: if isTempered r.1 then [.bad .unread] else tokens r.1
  | c :: rest =>
    plainToken c :: if isRepetition c && isTempered rest then [.bad .unread] else tokens rest
termination_by cs.length
decreasing_by all_goals (simp only [List.length_cons]; omega)

/-- An open group: the alternatives that are complete and the items of the one being read, both
reversed; an item is marked when it may be repeated. -/
structure Frame where
  alternatives : List Pattern
  items : List (Pattern × Bool)
  deriving Repr, Inhabited

namespace Frame

def fresh : Frame := ⟨[], []⟩

def sequence (f : Frame) : Pattern :=
  match f.items.reverse.map Prod.fst with
  | [] => .empty
  | p :: ps => ps.foldl .seq p

def close (f : Frame) : Pattern :=
  match f.alternatives.reverse ++ [f.sequence] with
  | [] => .empty
  | p :: ps => ps.foldl .alt p

def push (f : Frame) (p : Pattern) (repeatable : Bool) : Frame :=
  { f with items := (p, repeatable) :: f.items }

end Frame

/-- Folds the tokens that follow into the innermost open group and those around it. -/
def build (frame : Frame) (around : List Frame) : List Token → Except Fault Pattern
  | [] => if around.isEmpty then .ok frame.close else .error .malformed
  | .one k :: rest => build (frame.push (.one k) true) around rest
  | .anchor p :: rest => build (frame.push p false) around rest
  | .opening :: rest => build .fresh (frame :: around) rest
  | .closing :: rest =>
    match around with
    | [] => .error .malformed
    | outer :: more => build (outer.push frame.close true) more rest
  | .bar :: rest => build ⟨frame.sequence :: frame.alternatives, []⟩ around rest
  | .repeated least more :: rest =>
    match frame.items with
    | (p, true) :: items =>
      build { frame with items := (.repeated p least more, false) :: items } around rest
    | _ => .error .malformed
  | .bad f :: _ => .error f

/-- The pattern that a text describes, or why it describes none. -/
def parse (s : String) : Except Fault Pattern := build .fresh [] (tokens s.toList)

end BlockAsm.Pattern
