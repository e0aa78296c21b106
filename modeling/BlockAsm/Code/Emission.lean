import BlockAsm.Allocator.Loop
import BlockAsm.Code.Recipe
import BlockAsm.Stem

/-!
Carrying recipes out. The context of one function holds its allocator, the lines of the block that is
being written, and the takeovers that its loops reported. Every step gives back the context it leaves
together with its answer, because a step that fails may have bound names and written lines before.
-/

namespace BlockAsm

structure Context where
  allocator : Allocator
  lines : List Line := []
  block : Value := .null
  takeovers : List Takeover := []

namespace Context

def suffixPattern (suffix : Value) : Except Failure Pattern :=
  match suffix with
  | .str s =>
    match Pattern.parse s with
    | .ok p => .ok p
    | .error .malformed => .error (.fault (.suffixInvalid s))
    | .error .unread => .error (.fault (.suffixUnread s))
    | .error .countTooLarge => .error (.fault (.suffixTooLarge s))
  | v => .error (.fault (.suffixNotText v))

def localNames (locals : Value) : Except Failure (List Value) :=
  match locals.members? with
  | some names => .ok names
  | none => .error (.fault (.notEnumerable locals))

/-- A fresh context with the declared locals bound. -/
def create (suffix locals : Value) : Except Failure Context :=
  match suffixPattern suffix with
  | .error f => .error f
  | .ok p =>
    match localNames locals with
    | .error f => .error f
    | .ok names =>
      match Allocator.seed { stem := p.stem } names with
      | (a, .ok ()) => .ok { allocator := a }
      | (_, .error f) => .error f

def write (c : Context) (line : Line) : Context := { c with lines := c.lines ++ [line] }

def writeCode (c : Context) (opcode : Opcode) (tokens : List Token) (immediates : List Value) :
    Context :=
  c.write (.code ⟨opcode, tokens, immediates⟩)

def begin (c : Context) (label : Value) : Context := { c with block := label, lines := [] }

def take (c : Context) : List Line × Context := (c.lines, { c with lines := [] })

def withAllocator (c : Context) (a : Allocator) : Context := { c with allocator := a }

/-- Resolves operands that are returned, loading each constant into a scratch register. -/
def resolveReturned (c : Context) : List Operand → Context × Except Failure (List Token)
  | [] => (c, .ok [])
  | .constant index :: rest =>
    let (slot, a) := c.allocator.scratch
    let loaded := (c.withAllocator a).writeCode .loadk [.register slot, .constant index] []
    match loaded.resolveReturned rest with
    | (d, .ok ts) => (d, .ok (.register slot :: ts))
    | (d, .error f) => (d, .error f)
  | o :: rest =>
    match c.allocator.resolve o with
    | .error f => (c, .error f)
    | .ok (t, a) =>
      match (c.withAllocator a).resolveReturned rest with
      | (d, .ok ts) => (d, .ok (t :: ts))
      | (d, .error f) => (d, .error f)

/-- The line for returned tokens; their count plus one comes last, and two zeros stand for none. -/
def returnLine (tokens : List Token) : Line :=
  match tokens with
  | [] => .code ⟨.ret, [], [.int 0, .int 0]⟩
  | ts => .code ⟨.ret, ts, [.int (ts.length + 1)]⟩

def copyLine (c : Copy) : Line :=
  match c.source with
  | .constant _ => .code ⟨.loadk, [.register c.target, c.token], []⟩
  | _ => .code ⟨.move, [.register c.target, c.token], []⟩

def enterLoop (c : Context) (index limit step : Operand) (target : Value) :
    Context × Except Failure Unit :=
  match c.allocator.layOut index limit step with
  | (a, taken, result) =>
    let laid := { c with allocator := a, takeovers := c.takeovers ++ taken }
    match result with
    | .error f => (laid, .error f)
    | .ok layout =>
      let lines := layout.copies.map copyLine ++
        [.code ⟨.forprep, [.register layout.base], [target]⟩]
      ({ laid with lines := laid.lines ++ lines }, .ok ())

def stepLoop (c : Context) (index : Operand) (body : Value) : Context × Except Failure Unit :=
  match c.allocator.groupBase index with
  | .error f => (c, .error f)
  | .ok (some base) => (c.writeCode .forloop [.register base] [body], .ok ())
  | .ok none =>
    match c.allocator.resolve index with
    | .error f => (c, .error f)
    | .ok (t, a) => ((c.withAllocator a).writeCode .forloop [t] [body], .ok ())

def perform (c : Context) : Recipe → Context × Except Failure Unit
  | .line opcode operands immediates =>
    match c.allocator.resolveAll operands with
    | (a, .ok tokens) => ((c.withAllocator a).writeCode opcode tokens immediates, .ok ())
    | (a, .error f) => (c.withAllocator a, .error f)
  | .abort operands why =>
    match c.allocator.resolveAll operands with
    | (a, .ok _) => (c.withAllocator a, .error why)
    | (a, .error f) => (c.withAllocator a, .error f)
  | .giveBack operands =>
    match c.resolveReturned operands with
    | (d, .ok tokens) => (d.write (returnLine tokens), .ok ())
    | (d, .error f) => (d, .error f)
  | .enterLoop index limit step target => c.enterLoop index limit step target
  | .stepLoop index body => c.stepLoop index body
  | .verbatim payload => (c.write (.verbatim payload), .ok ())

def lower (c : Context) (item : Item) : Context × Except Failure Unit :=
  match item with
  | .instruction i => c.perform i.recipe
  | .other v => (c, .error (.fault (.itemNotInstruction v)))

/-- Lowers items in order; a complaint is placed in the block and at its item. -/
def lowerAll (c : Context) (label : Value) : List Item → Context × Except Failure Unit
  | [] => (c, .ok ())
  | item :: rest =>
    match c.lower item with
    | (d, .ok ()) => d.lowerAll label rest
    | (d, .error f) => (d, .error (f.annotate label (some (.str item.text))))

/-- Lowers a block to its label and its scoped lines. -/
def emitBlock (c : Context) (b : Block) : Context × Except Failure (List Line) :=
  let opened := ((c.begin b.label).write (.text (b.label.plain ++ ":"))).write (.text ".scope")
  match opened.lowerAll b.label b.items with
  | (d, .ok ()) =>
    let (lines, e) := (d.write (.text ".endscope")).take
    (e, .ok lines)
  | (d, .error f) => (d, .error f)

end Context

end BlockAsm
