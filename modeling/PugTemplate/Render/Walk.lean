import PugTemplate.Render.Attribute
import PugTemplate.Render.Frame

/-!
# Rendering a tree

A node acts on the session: it writes pieces of the page and changes local names. What leads out of
the tree, a call and the content of a call, is given from outside, so a tree is walked by its own
shape.
-/

namespace PugTemplate

inductive RenderError where
  | undefinedMixin (name : String) (loc : Location)
  | unknownFilter (name : String) (loc : Location)
  | iterationLimit (limit : Nat) (loc : Location)
  | callDepth (limit : Nat) (loc : Location)
deriving DecidableEq, Repr

def RenderError.message (e : RenderError) : String :=
  let place := fun loc : Location =>
    " (line " ++ toString loc.line ++ ", column " ++ toString loc.column ++ ")"
  match e with
  | undefinedMixin name loc => "Mixin \"" ++ name ++ "\" is not defined" ++ place loc
  | unknownFilter name loc => "Filter \"" ++ name ++ "\" is not registered" ++ place loc
  | iterationLimit limit loc =>
    "`while` loop exceeded " ++ toString limit ++ " iterations" ++ place loc
  | callDepth limit loc => "Mixin calls nested deeper than " ++ toString limit ++ place loc

/-- A filter makes new text from a text and its attributes. -/
abbrev Filter := String → Dictionary Value → String

/-- All that stays the same while a page is rendered. -/
structure Page where
  mixins : Dictionary Mixin
  options : Options
  filters : Dictionary Filter
  data : Value
  dialect : Dialect

abbrev Action (n : Nat) := EStateM RenderError (Session n) Unit

namespace Action

variable {n m : Nat}

def emit (fs : List Fragment) : Action n :=
  modify fun s => { s with out := s.out ++ fs.toArray }

/-- Acts on other frames, made from the ones at hand; what comes of them is taken back, also on
failure. The output goes on. -/
def within (enter : Chain n → Chain m) (leave : Chain n → Chain m → Chain n) (act : Action m) :
    Action n := fun ⟨chain, out⟩ =>
  match act ⟨enter chain, out⟩ with
  | .ok () ⟨after, out⟩ => .ok () ⟨leave chain after, out⟩
  | .error e ⟨after, out⟩ => .error e ⟨leave chain after, out⟩

/-- Acts with one more scope. -/
def withScope (scope : Dictionary Value) (act : Action n) : Action n :=
  within (·.mapFrame (Frame.push scope)) (fun _ c => c.mapFrame Frame.pop) act

end Action

/-- The ways out of a tree. -/
structure Exits (n : Nat) where
  /-- Renders the content of the call at hand. -/
  slot : Action n
  /-- Renders the body of a mixin in a new frame, for a call at a position. -/
  enter : Location → Mixin → Frame → Option (List Node) → Action n

namespace Page

variable {n : Nat}

/-- The value of a name: a local one hides one of the data. -/
def lookup (p : Page) (f : Frame) (name : String) : Option Value :=
  (f.find? name).or (p.data.get? name)

def eval (p : Page) (f : Frame) (e : Expr) : Value :=
  e.eval (p.lookup f)

def value (p : Page) (e : Expr) : EStateM RenderError (Session n) Value := do
  return p.eval (← get).chain.frame e

/-- One statement in a frame. -/
def execute (p : Page) (f : Frame) : Statement → Frame
  | .declare name e => f.declare name (p.eval f e)
  | .assign name op e =>
    f.assign name (op.apply (p.eval f (.name name)) (p.eval f e))

def executeAll (p : Page) (f : Frame) (list : List Statement) : Frame :=
  list.foldl p.execute f

/-! ## Loops and branches -/

/-- How often a loop may run. Where no limit is set this is 2^64 times, more than are ever reached:
such a loop is only bounded here so that it ends. The machine of frames sets it no bound at all. -/
def budget (p : Page) : Nat :=
  p.options.maxIterations.getD UInt64.size

/-- Repeats an action while a test holds, as often as is left. -/
def repeatWhile (p : Page) (loc : Location) (test : Expr) (body : Action n) : Nat → Action n
  | 0 => do
    if (← p.value test).truthy then throw (.iterationLimit p.budget loc)
  | left + 1 => do
    if (← p.value test).truthy then
      body
      repeatWhile p loc test body left

/-- What a loop runs over: keys, or positions, with their items. -/
def entries : Value → List (Value × Value)
  | .array items => items.mapIdx fun i v => (.ofNat i, v)
  | .map entries => entries.map fun (k, v) => (.string k, v)
  | _ => []

/-- The names of one turn of a loop. -/
def turnScope (value : String) (key : Option String) (entry : Value × Value) : Dictionary Value :=
  let scope := [(value, entry.2)]
  match key with
  | some key => Dictionary.put key entry.1 scope
  | none => scope

def forEntries (value : String) (key : Option String) (body : Action n) :
    List (Value × Value) → Action n
  | [] => return
  | entry :: rest => do
    (body.withScope (turnScope value key entry) : Action n)
    forEntries value key body rest

/-- The branch of a `case` that is taken. A branch without a body falls through to the next one that
has one. The first default with a body counts if nothing else is found. -/
def choose {α : Type} (holds : Expr → Bool) (falling : Bool) (fallback : Option α) :
    List (Option Expr × Option α) → Option α
  | [] => fallback
  | (none, body) :: rest =>
    match falling, body with
    | true, some b => some b
    | _, _ => choose holds falling (fallback.or body) rest
  | (some e, body) :: rest =>
    if falling || holds e then
      match body with
      | some b => some b
      | none => choose holds true fallback rest
    else choose holds falling fallback rest

/-! ## Tags and calls -/

/-- Whether an element is written without an end tag. -/
def isVoid (p : Page) (name : String) (selfClosing : Bool) : Bool :=
  selfClosing || (!p.dialect.xml && voidElements.contains name)

/-- A name and the piece it is written as. -/
def nameOf (p : Page) (f : Frame) : NameSource → String × Fragment
  | .fixed s => (s, .fixed s)
  | .computed e => ((p.eval f e).toOutput, .raw (p.eval f e).toOutput)

def bindings (p : Page) (f : Frame) (head : Head) : List Binding :=
  Binding.ofHead (p.eval f) head

/-- The arguments of a call by parameter. An argument that is missing or null takes the fallback; a
rest parameter takes all that are left. -/
def bindParams (fallback : Expr → Value) : List Param → List Value → List (String × Value)
  | [], _ => []
  | param :: params, args =>
    if param.rest then (param.name, .array args) :: bindParams fallback params []
    else
      let given := args.head?.filter fun v => !v.isNull
      let value := match given with
        | some v => v
        | none => (param.fallback.map fallback).getD .null
      (param.name, value) :: bindParams fallback params args.tail

/-- The frame that a call opens. -/
def callFrame (p : Page) (f : Frame) (mixin : Mixin) (args : List Expr) (head : Head)
    (hasContent : Bool) : Frame :=
  { base := Dictionary.ofEntries (bindParams (p.eval f) mixin.params (args.map (p.eval f)) ++
      [("attributes", attributesMap (p.bindings f head)), ("block", .bool hasContent)]) }

def call (p : Page) (exits : Exits n) (loc : Location) (name : NameSource) (args : List Expr)
    (head : Head) (content : Option (List Node)) : Action n := do
  let f := (← get).chain.frame
  let name := (p.nameOf f name).1
  match Dictionary.find? name p.mixins with
  | none => throw (.undefinedMixin name loc)
  | some mixin => exits.enter loc mixin (p.callFrame f mixin args head content.isSome) content

def filter (p : Page) (loc : Location) (name : String) (attributes : List Attribute)
    (text : String) : Action n := do
  let f := (← get).chain.frame
  let given := Dictionary.ofEntries (attributes.map fun a => (a.name, p.eval f a.value))
  match Dictionary.find? name p.filters with
  | none => throw (.unknownFilter name loc)
  | some g => Action.emit [.raw (g text given)]

/-! ## Nodes -/

mutual

def act (p : Page) (exits : Exits n) : Node → Action n
  | .group _ body | .namedBlock _ _ _ body => actAll p exits body
  | .tag _ name head selfClosing _ body => do
    let f := (← get).chain.frame
    let (name, shown) := p.nameOf f name
    let start := .fixed "<" :: shown :: attributeFragments p.dialect (p.bindings f head)
    if p.isVoid name selfClosing && body.isEmpty then
      Action.emit (start ++ [.fixed (if p.dialect.terse && !selfClosing then ">" else "/>")])
    else do
      Action.emit (start ++ [.fixed ">"])
      actAll p exits body
      Action.emit [.fixed "</", shown, .fixed ">"]
  | .text _ _ segments => actSegments p exits segments
  | .output _ e escape => do Action.emit [.ofData escape (← p.value e).toOutput]
  | .statements _ list => modify fun s => { s with chain := s.chain.mapFrame fun f => p.executeAll f list }
  | .comment _ text true body =>
    Action.emit [.fixed "<!--", .fixed text, .fixed ((body.map (·.2)).getD ""), .fixed "-->"]
  | .doctype _ value => Action.emit [.fixed (Doctype.markup (Doctype.declared p.options value))]
  | .conditional _ negate test body next => do
    if (← p.value test).truthy != negate then actAll p exits body
    else actOtherwise p exits next
  | .switch _ subject branches => do
    let f := (← get).chain.frame
    let v := p.eval f subject
    match choose (fun e => v.strictEq (p.eval f e)) false none (branchActions p exits branches) with
    | some body => body
    | none => return
  | .each _ value key source body ifEmpty => do
    match entries (← p.value source) with
    | [] => actOption p exits ifEmpty
    | es => forEntries value key (actAll p exits body) es
  | .loop loc test body => repeatWhile p loc test (actAll p exits body) p.budget
  | .call loc name args head content => call p exits loc name args head content
  | .slot _ => exits.slot
  | .filter loc name attributes text => filter p loc name attributes text
  | .comment _ _ false _ | .mixin .. | .includes .. | .rawInclude .. | .inherits .. | .yield _ =>
    return

def actAll (p : Page) (exits : Exits n) : List Node → Action n
  | [] => return
  | node :: nodes => do
    act p exits node
    actAll p exits nodes

def actSegments (p : Page) (exits : Exits n) : List Segment → Action n
  | [] => return
  | .literal text :: rest => do
    Action.emit [.fixed text]
    actSegments p exits rest
  | .escaped e :: rest => do
    Action.emit [.escaped (← p.value e).toOutput]
    actSegments p exits rest
  | .raw e :: rest => do
    Action.emit [.raw (← p.value e).toOutput]
    actSegments p exits rest
  | .tag node :: rest => do
    act p exits node
    actSegments p exits rest

def actOtherwise (p : Page) (exits : Exits n) : Otherwise → Action n
  | .nothing => return
  | .elseIf _ test body next => do
    if (← p.value test).truthy then actAll p exits body else actOtherwise p exits next
  | .otherwise _ body => actAll p exits body

/-- The tests of branches and what their bodies do. -/
def branchActions (p : Page) (exits : Exits n) :
    List Branch → List (Option Expr × Option (Action n))
  | [] => []
  | .mk _ test none :: rest => (test, none) :: branchActions p exits rest
  | .mk _ test (some body) :: rest =>
    (test, some (actAll p exits body)) :: branchActions p exits rest

def actOption (p : Page) (exits : Exits n) : Option (List Node) → Action n
  | none => return
  | some body => actAll p exits body

end

end Page

end PugTemplate
