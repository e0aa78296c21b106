import BlockAsm.Value
import BlockAsm.Number.Integer
import BlockAsm.Text.Surrogate

/-!
Reading a value from JSON text. Beside the standard grammar the words `NaN`, `Infinity` and
`-Infinity` are numbers. A refusal names what was expected and where; inside the reader a place is
given by the number of characters left, and only the outermost function turns it into a position.

Each reader hands back what it left over together with a proof that it is shorter than what it was
given, which is why the readers end.
-/

namespace BlockAsm.Json

inductive Fault where
  | value
  | propertyName
  | colon
  | comma
  | unterminated
  | control
  | escape
  | unicodeEscape
  | extraData
  | byteOrderMark
  deriving DecidableEq, Repr

def Fault.message : Fault → String
  | .value => "Expecting value"
  | .propertyName => "Expecting property name enclosed in double quotes"
  | .colon => "Expecting ':' delimiter"
  | .comma => "Expecting ',' delimiter"
  | .unterminated => "Unterminated string starting at"
  | .control => "Invalid control character at"
  | .escape => "Invalid \\escape"
  | .unicodeEscape => "Invalid \\uXXXX escape"
  | .extraData => "Extra data"
  | .byteOrderMark => "Unexpected UTF-8 BOM (decode using utf-8-sig)"

/-- Why reading stopped, with the number of characters left at the place that is named. -/
inductive Stop where
  | fault (f : Fault) (left : Nat)
  | tooManyDigits
  /-- A character that is taken to stand in for another. -/
  | reserved
  deriving DecidableEq, Repr

def isSpace (c : Char) : Bool := c == ' ' || c == '\t' || c == '\n' || c == '\r'

def skipSpace (cs : List Char) : List Char := cs.dropWhile isSpace

theorem length_skipSpace (cs : List Char) : (skipSpace cs).length ≤ cs.length :=
  (List.dropWhile_sublist _).length_le

def hexValue? (c : Char) : Option Nat :=
  if '0' ≤ c ∧ c ≤ '9' then some (c.toNat - 48)
  else if 'a' ≤ c ∧ c ≤ 'f' then some (c.toNat - 87)
  else if 'A' ≤ c ∧ c ≤ 'F' then some (c.toNat - 55)
  else none

def unit? (a b c d : Char) : Option Nat :=
  match hexValue? a, hexValue? b, hexValue? c, hexValue? d with
  | some a, some b, some c, some d => some (4096 * a + 256 * b + 16 * c + d)
  | _, _, _, _ => none

def isHigh (n : Nat) : Bool := 0xD800 ≤ n && n ≤ 0xDBFF

def isLow (n : Nat) : Bool := 0xDC00 ≤ n && n ≤ 0xDFFF

def joinUnits (high low : Nat) : Char :=
  Char.ofNat (0x10000 + 0x400 * (high - 0xD800) + (low - 0xDC00))

/-- The character of one unit. Half of a pair that stands alone has a stand-in. -/
def unitChar (n : Nat) : Char := if isHigh n || isLow n then Text.standIn n else Char.ofNat n

def shortEscape? (c : Char) : Option Char :=
  match c with
  | '"' => some '"'
  | '\\' => some '\\'
  | '/' => some '/'
  | 'b' => some '\x08'
  | 'f' => some '\x0c'
  | 'n' => some '\n'
  | 'r' => some '\r'
  | 't' => some '\t'
  | _ => none

/-- The second half of a pair, if it follows and is not the end of the text. -/
inductive Follower where
  | pair (low : Nat) (rest : List Char)
  | malformed
  | none

def follower : List Char → Follower
  | '\\' :: 'u' :: a :: b :: c :: d :: rest =>
    if rest.isEmpty then .none
    else match unit? a b c d with
      | some n => if isLow n then .pair n rest else .none
      | Option.none => .malformed
  | _ => .none

theorem length_follower {cs : List Char} {n : Nat} {rest : List Char}
    (h : follower cs = .pair n rest) : rest.length < cs.length := by
  unfold follower at h
  split at h
  · split at h
    · cases h
    · split at h
      · split at h
        · cases h; simp only [List.length_cons]; omega
        · cases h
      · cases h
  · cases h

/-- Reads a string after its opening quote, at which `start` characters were left; what has been
read is held reversed. -/
def readString (start : Nat) (held : List Char) (cs : List Char) :
    Except Stop (String × { r : List Char // r.length < cs.length }) :=
  match cs with
  | [] => .error (.fault .unterminated start)
  | '"' :: rest => .ok (String.ofList held.reverse, ⟨rest, by simp only [List.length_cons]; omega⟩)
  | '\\' :: [] => .error (.fault .unterminated start)
  | '\\' :: 'u' :: a :: b :: c :: d :: rest =>
    let left := rest.length + 5
    match rest.isEmpty, unit? a b c d with
    | false, some n =>
      if isHigh n then
        match h : follower rest with
        | .pair low more =>
          have : more.length < rest.length := length_follower h
          if Text.isStandIn (joinUnits n low) then .error .reserved
          else
            match readString start (joinUnits n low :: held) more with
            | .ok (s, r) => .ok (s, ⟨r.1, by have := r.2; simp only [List.length_cons]; omega⟩)
            | .error e => .error e
        | .malformed => .error (.fault .unicodeEscape (rest.length - 1))
        | .none =>
          match readString start (unitChar n :: held) rest with
          | .ok (s, r) => .ok (s, ⟨r.1, by have := r.2; simp only [List.length_cons]; omega⟩)
          | .error e => .error e
      else
        match readString start (unitChar n :: held) rest with
        | .ok (s, r) => .ok (s, ⟨r.1, by have := r.2; simp only [List.length_cons]; omega⟩)
        | .error e => .error e
    | _, _ => .error (.fault .unicodeEscape left)
  | '\\' :: e :: rest =>
    if e = 'u' then .error (.fault .unicodeEscape (rest.length + 1))
    else match shortEscape? e with
      | some c =>
        match readString start (c :: held) rest with
        | .ok (s, r) => .ok (s, ⟨r.1, by have := r.2; simp only [List.length_cons]; omega⟩)
        | .error e => .error e
      | none => .error (.fault .escape (rest.length + 2))
  | c :: rest =>
    if c.toNat < 0x20 then .error (.fault .control (rest.length + 1))
    else if Text.isStandIn c then .error .reserved
    else
      match readString start (c :: held) rest with
      | .ok (s, r) => .ok (s, ⟨r.1, by have := r.2; simp only [List.length_cons]; omega⟩)
      | .error e => .error e
termination_by cs.length

def spanDigits (cs : List Char) : List Char × List Char :=
  (cs.takeWhile Char.isDigit, cs.dropWhile Char.isDigit)

def fraction (cs : List Char) : List Char × List Char :=
  match cs with
  | '.' :: rest =>
    if (spanDigits rest).1.isEmpty then ([], cs) else spanDigits rest
  | _ => ([], cs)

def signedDigits (cs : List Char) : Bool × (List Char × List Char) :=
  match cs with
  | '-' :: rest => (true, spanDigits rest)
  | '+' :: rest => (false, spanDigits rest)
  | _ => (false, spanDigits cs)

/-- The sign and digits of an exponent, if at least one digit stands there. -/
def exponent (cs : List Char) : Option (Bool × List Char) × List Char :=
  match cs with
  | c :: rest =>
    if c = 'e' ∨ c = 'E' then
      let d := signedDigits rest
      if d.2.1.isEmpty then (none, cs) else (some (d.1, d.2.1), d.2.2)
    else (none, cs)
  | [] => (none, cs)

/-- The whole part of a number: a lone zero, or digits that start with none. -/
def whole (cs : List Char) : List Char × List Char :=
  match cs with
  | '0' :: rest => (['0'], rest)
  | _ => spanDigits cs

/-- An exponent of more digits than fit any double is as good as one with many. -/
def exponentValue (negative : Bool) (digits : List Char) : Int :=
  let n := Text.digitsValue (if (digits.dropWhile (· == '0')).length ≤ 20 then digits
    else List.replicate 20 '9')
  if negative then -(n : Int) else n

def number (negative : Bool) (digits frac : List Char) (exp : Option (Bool × List Char)) :
    Except Stop Value :=
  match frac, exp with
  | [], none =>
    if digits.length ≤ Integer.maxDigits then
      let n : Int := Text.digitsValue digits
      .ok (.int (if negative then -n else n))
    else .error .tooManyDigits
  | _, _ =>
    let e := match exp with
      | some (sign, ds) => exponentValue sign ds
      | none => 0
    .ok (.float (.ofDecimal negative (Text.digitsValue (digits ++ frac)) (e - frac.length)))

theorem length_spanDigits (cs : List Char) : (spanDigits cs).2.length ≤ cs.length :=
  (List.dropWhile_sublist _).length_le

theorem length_fraction (cs : List Char) : (fraction cs).2.length ≤ cs.length := by
  unfold fraction
  split
  · rename_i rest
    have := length_spanDigits rest
    split
    · exact Nat.le_refl _
    · simp only [List.length_cons]; omega
  · exact Nat.le_refl _

theorem length_signedDigits (cs : List Char) : (signedDigits cs).2.2.length ≤ cs.length := by
  unfold signedDigits
  split
  · rename_i rest
    have := length_spanDigits rest
    simp only [List.length_cons]; omega
  · rename_i rest
    have := length_spanDigits rest
    simp only [List.length_cons]; omega
  · exact length_spanDigits cs

theorem length_exponent (cs : List Char) : (exponent cs).2.length ≤ cs.length := by
  unfold exponent
  split
  · rename_i c rest
    have := length_signedDigits rest
    split
    · dsimp only
      split
      · exact Nat.le_refl _
      · simp only [List.length_cons]; omega
    · exact Nat.le_refl _
  · exact Nat.le_refl _

theorem length_whole {cs : List Char} (h : (whole cs).1.isEmpty = false) :
    (whole cs).2.length < cs.length := by
  unfold whole at h ⊢
  split
  · simp
  · rename_i hc
    cases cs with
    | nil => simp [spanDigits] at h
    | cons c rest =>
      have := length_spanDigits rest
      by_cases hd : c.isDigit = true
      · simp only [spanDigits, List.dropWhile, hd, List.length_cons] at this ⊢
        omega
      · simp [spanDigits, hd] at h

def sign (cs : List Char) : Bool × List Char :=
  match cs with
  | '-' :: rest => (true, rest)
  | _ => (false, cs)

theorem length_sign (cs : List Char) : (sign cs).2.length ≤ cs.length := by
  unfold sign
  split <;> simp

def readNumber (cs : List Char) :
    Option (Except Stop (Value × { r : List Char // r.length < cs.length })) :=
  if h : (whole (sign cs).2).1.isEmpty then none
  else
    let w := whole (sign cs).2
    let f := fraction w.2
    let e := exponent f.2
    some (match number (sign cs).1 w.1 f.1 e.1 with
      | .ok v => .ok (v, ⟨e.2, by
          have h₁ := length_sign cs
          have h₂ := length_whole (Bool.eq_false_iff.mpr h)
          have h₃ := length_fraction w.2
          have h₄ := length_exponent f.2
          simp only [w, f, e] at h₃ h₄ ⊢
          omega⟩)
      | .error stop => .error stop)

def wordValues : List (String × Value) :=
  [("null", .null), ("true", .bool true), ("false", .bool false), ("NaN", .float .nan),
    ("Infinity", .float (.infinite false)), ("-Infinity", .float (.infinite true))]

def dropWord? : List Char → List Char → Option (List Char)
  | [], cs => some cs
  | _ :: _, [] => none
  | w :: word, c :: cs => if w = c then dropWord? word cs else none

theorem length_dropWord? {word cs rest : List Char} (h : dropWord? word cs = some rest) :
    cs.length = word.length + rest.length := by
  induction word generalizing cs with
  | nil => cases h; simp
  | cons w word ih =>
    cases cs with
    | nil => cases h
    | cons c cs =>
      by_cases hc : w = c
      · simp only [dropWord?, hc, if_true] at h
        have := ih h
        simp only [List.length_cons]; omega
      · simp [dropWord?, hc] at h

def readWord (cs : List Char) : List (String × Value) →
    Option (Value × { r : List Char // r.length < cs.length })
  | [] => none
  | (word, v) :: others =>
    match h : dropWord? word.toList cs with
    | some rest =>
      if hw : 0 < word.toList.length then
        some (v, ⟨rest, by have := length_dropWord? h; omega⟩)
      else readWord cs others
    | none => readWord cs others

mutual

def readValue (cs : List Char) : Except Stop (Value × { r : List Char // r.length < cs.length }) :=
  match cs with
  | '"' :: rest =>
    match readString (rest.length + 1) [] rest with
    | .ok (s, r) => .ok (.str s, ⟨r.1, by have := r.2; simp only [List.length_cons]; omega⟩)
    | .error e => .error e
  | '[' :: rest =>
    have hs := length_skipSpace rest
    match hr : skipSpace rest with
    | ']' :: more => .ok (.list [], ⟨more, by rw [hr] at hs; simp only [List.length_cons] at hs ⊢; omega⟩)
    | more =>
      have : more.length ≤ rest.length := by rw [← hr]; exact hs
      match readItems [] more with
      | .ok (items, r) => .ok (.list items, ⟨r.1, by have := r.2; simp only [List.length_cons]; omega⟩)
      | .error e => .error e
  | '\x7b' :: rest =>
    have hs := length_skipSpace rest
    match hr : skipSpace rest with
    | '\x7d' :: more => .ok (.object [], ⟨more, by rw [hr] at hs; simp only [List.length_cons] at hs ⊢; omega⟩)
    | more =>
      have : more.length ≤ rest.length := by rw [← hr]; exact hs
      match readFields [] more with
      | .ok (fields, r) => .ok (.object fields, ⟨r.1, by have := r.2; simp only [List.length_cons]; omega⟩)
      | .error e => .error e
  | cs =>
    match readWord cs wordValues with
    | some (v, r) => .ok (v, r)
    | none =>
      match readNumber cs with
      | some result => result
      | none => .error (.fault .value cs.length)
termination_by (cs.length, 0)

/-- Reads the members of a list from the first, or from one after a comma, to the closing bracket;
the members read so far are held reversed. -/
def readItems (held : List Value) (cs : List Char) :
    Except Stop (List Value × { r : List Char // r.length < cs.length }) :=
  match readValue cs with
  | .error e => .error e
  | .ok (v, r) =>
    have hr := r.2
    have hs := length_skipSpace r.1
    match hm : skipSpace r.1 with
    | ']' :: more =>
      .ok ((v :: held).reverse, ⟨more, by rw [hm] at hs; simp only [List.length_cons] at hs; omega⟩)
    | ',' :: more =>
      have hm : more.length < cs.length := by rw [hm] at hs; simp only [List.length_cons] at hs; omega
      have ht := length_skipSpace more
      match readItems (v :: held) (skipSpace more) with
      | .ok (items, r) => .ok (items, ⟨r.1, by have := r.2; omega⟩)
      | .error e => .error e
    | more => .error (.fault .comma more.length)
termination_by (cs.length, 1)

/-- Reads the fields of an object from the first, or from one after a comma, to the closing brace. -/
def readFields (held : Fields) (cs : List Char) :
    Except Stop (Fields × { r : List Char // r.length < cs.length }) :=
  match cs with
  | '"' :: rest =>
    match readString (rest.length + 1) [] rest with
    | .error e => .error e
    | .ok (key, r) =>
      have hr := r.2
      have hs := length_skipSpace r.1
      match hm : skipSpace r.1 with
      | ':' :: after =>
        have ha := length_skipSpace after
        have hl : after.length < rest.length := by rw [hm] at hs; simp only [List.length_cons] at hs; omega
        match readValue (skipSpace after) with
        | .error e => .error e
        | .ok (v, r) =>
          have hv := r.2
          have hw := length_skipSpace r.1
          match hn : skipSpace r.1 with
          | '\x7d' :: more =>
            .ok (Table.set held key v, ⟨more, by rw [hn] at hw; simp only [List.length_cons] at hw ⊢; omega⟩)
          | ',' :: more =>
            have hm : more.length < rest.length := by rw [hn] at hw; simp only [List.length_cons] at hw; omega
            have ht := length_skipSpace more
            match readFields (Table.set held key v) (skipSpace more) with
            | .ok (fields, r) => .ok (fields, ⟨r.1, by have := r.2; simp only [List.length_cons]; omega⟩)
            | .error e => .error e
          | more => .error (.fault .comma more.length)
      | after => .error (.fault .colon after.length)
  | cs => .error (.fault .propertyName cs.length)
termination_by (cs.length, 1)

end

/-- A refused text: what was expected, and the line, column and position of the place. -/
structure Malformed where
  fault : Fault
  line : Nat
  column : Nat
  position : Nat
  deriving DecidableEq, Repr

def Malformed.message (m : Malformed) : String :=
  m.fault.message ++ ": line " ++ toString m.line ++ " column " ++ toString m.column ++ " (char " ++
    toString m.position ++ ")"

inductive Error where
  | malformed (m : Malformed)
  | tooManyDigits
  | reserved
  deriving DecidableEq, Repr

def malformedAt (text : List Char) (fault : Fault) (position : Nat) : Malformed :=
  let before := text.take position
  { fault := fault
    line := before.count '\n' + 1
    column := (before.reverse.takeWhile (· != '\n')).length + 1
    position := position }

def Stop.toError (text : List Char) : Stop → Error
  | .fault f left => .malformed (malformedAt text f (text.length - left))
  | .tooManyDigits => .tooManyDigits
  | .reserved => .reserved

def parse (text : List Char) : Except Error Value :=
  match text with
  | '\ufeff' :: _ => .error (.malformed (malformedAt text .byteOrderMark 0))
  | _ =>
    match readValue (skipSpace text) with
    | .error stop => .error (stop.toError text)
    | .ok (v, r) =>
      match skipSpace r.1 with
      | [] => .ok v
      | rest => .error (.malformed (malformedAt text .extraData (text.length - rest.length)))

end BlockAsm.Json
