import PugTemplate.Lex.Read
import PugTemplate.Tree.Part

/-!
# Reading the tree

Every construct begins with a token that tells what it is. `Node.read` is given that token and the
ones behind it, and answers the nodes it stands for and how many of the tokens behind it belong to
it; so what is left is always shorter. A construct is one node, but markup with an indented block
under it stands for its text and the nodes of the block.
-/

namespace PugTemplate

/-- What a reader of nodes needs to know of where they stand. -/
structure TreeContext where
  /-- The position that counts behind the last token. -/
  stop : Location
  /-- Whether a mixin is being defined. -/
  inMixin : Bool
  /-- Cuts text into segments. -/
  segments : String → Location → Except ParseError (List Segment)

namespace TreeContext

def textNode (cx : TreeContext) (raw : String) (loc : Location) : Except ParseError Node := do
  return .text loc raw (← cx.segments raw loc)

/-- The text a tag ends its line with a dot for. -/
def textBody (cx : TreeContext) : List Token → Except ParseError (List Node × Nat)
  | ⟨.pipelessStart, _⟩ :: rest => do
    let (loc, raw, k) ← pipelessBody cx.stop rest
    return ([← cx.textNode raw loc], k + 1)
  | _ => return ([], 0)

end TreeContext

/-! ## Constructs without nodes inside -/

/-- `= value`, or `- statements`. -/
def Node.ofCode (source : String) (buffered escape : Bool) (loc : Location) :
    Except ParseError Node :=
  if buffered then do return .output loc (← expressionAt source loc) escape
  else do return .statements loc (← statementsAt source loc)

/-- Code on a line of its own, which cannot have a block below it. -/
def readCode (source : String) (buffered escape : Bool) (loc : Location) (rest : List Token) :
    Except ParseError (List Node × Nat) := do
  let n ← Node.ofCode source buffered escape loc
  match rest with
  | ⟨.indent _, at_⟩ :: _ => .error ⟨.codeWithBlock, at_⟩
  | _ => return ([n], 0)

def readCodeBlock (stop : Location) (loc : Location) :
    List Token → Except ParseError (List Node × Nat)
  | ⟨.pipelessStart, _⟩ :: rest => do
    let (bodyLoc, text, k) ← pipelessBody stop rest
    return ([.statements loc (← blockStatements bodyLoc (lines text.toList))], k + 1)
  | _ => return ([.statements loc []], 0)

def readComment (stop : Location) (text : String) (buffered : Bool) (loc : Location) :
    List Token → Except ParseError (Node × Nat)
  | ⟨.pipelessStart, _⟩ :: rest => do
    let (bodyLoc, body, k) ← pipelessBody stop rest
    return (.comment loc text buffered (some (bodyLoc, body)), k + 1)
  | _ => return (.comment loc text buffered none, 0)

def readPath (stop : Location) : List Token → Except ParseError String
  | ⟨.path target, _⟩ :: _ => return target
  | ts => unexpected stop ts .path

/-- What a filter works on: the text in its line, or the block below it. -/
def filterText (stop : Location) : List Token → Except ParseError (String × Nat)
  | ⟨.text s, _⟩ :: _ => return (s, 1)
  | ⟨.pipelessStart, _⟩ :: rest => do
    let (_, text, k) ← pipelessBody stop rest
    return (text, k + 1)
  | _ => return ("", 0)

def readFilter (stop : Location) (name : String) (loc : Location) (rest : List Token) :
    Except ParseError (List Node × Nat) := do
  let (attributes, k) ← match rest with
    | ⟨.attributesStart, _⟩ :: more => do
      let (as, k) ← attributesRead stop more
      pure (as, k + 1)
    | _ => pure ([], 0)
  let (text, n) ← filterText stop (rest.drop k)
  return ([.filter loc name attributes text], k + n)

def callName (name : String) (computed : Bool) (loc : Location) : Except ParseError NameSource :=
  if computed then .computed <$> expressionAt name loc else return .fixed name

def callArguments (args : Option String) (loc : Location) : Except ParseError (List Expr) :=
  match args with
  | some source => atLocation source loc (Expr.readList source.toList)
  | none => return []

/-- How many tokens stand before an `else` branch that follows, if one does. -/
def beforeElse (orElseIf : Bool) : List Token → Nat
  | ⟨.newline, _⟩ :: ⟨.otherwise _, _⟩ :: _ => 1
  | ⟨.newline, _⟩ :: ⟨.elseIf _, _⟩ :: _ => if orElseIf then 1 else 0
  | _ => 0

theorem length_lt_of_drop {α : Type} {k : Nat} {a : α} {ts rest : List α}
    (h : ts.drop k = a :: rest) : rest.length < ts.length := by
  have hl := congrArg List.length h
  rw [List.length_drop, List.length_cons] at hl
  omega

/-! ## Constructs with nodes inside -/

mutual

/-- The nodes of the construct that a token begins. -/
def Node.read (cx : TreeContext) (t : Token) (rest : List Token) :
    Except ParseError (List Node × Nat) :=
  match t with
  | ⟨.tag name, loc⟩ => do
    let (n, k) ← readElement cx loc (.fixed name) name rest
    return ([n], k)
  | ⟨.id _, loc⟩ | ⟨.className _, loc⟩ | ⟨.attributesStart, loc⟩ => do
    let (n, k) ← readElement cx loc (.fixed "div") "div" (t :: rest)
    return ([n], k - 1)
  | ⟨.interpolation source, loc⟩ => do
    let e ← expressionAt source loc
    let (n, k) ← readElement cx loc (.computed e) source rest
    return ([n], k)
  | ⟨.text s, loc⟩ => do
    let (more, k) := textRun true rest
    return ([← cx.textNode (s ++ more) loc], k)
  | ⟨.html s, loc⟩ => do
    let (more, k) := htmlRun rest
    let n ← cx.textNode (joinLines (s :: more)) loc
    let (body, m) ← readOptionalBlock cx (rest.drop k)
    return (n :: body, k + m)
  | ⟨.comment text buffered, loc⟩ => do
    let (n, k) ← readComment cx.stop text buffered loc rest
    return ([n], k)
  | ⟨.doctype value, loc⟩ => return ([.doctype loc value], 0)
  | ⟨.code source buffered escape, loc⟩ => readCode source buffered escape loc rest
  | ⟨.codeBlock, loc⟩ => readCodeBlock cx.stop loc rest
  | ⟨.ifCond source, loc⟩ => readConditional cx loc false source rest
  | ⟨.unlessCond source, loc⟩ => readConditional cx loc true source rest
  | ⟨.switch source, loc⟩ => do
    let subject ← expressionAt source loc
    match rest with
    | ⟨.indent _, _⟩ :: inner => do
      let (branches, k) ← readBranches cx inner
      return ([.switch loc subject branches], k + 1)
    | _ => return ([.switch loc subject []], 0)
  | ⟨.each value key source, loc⟩ => readEach cx loc value key source rest
  | ⟨.eachOf value source, loc⟩ => readEach cx loc value none source rest
  | ⟨.loop source, loc⟩ => do
    let test ← expressionAt source loc
    let (body, k) ← readOptionalBlock cx rest
    return ([.loop loc test body], k)
  | ⟨.mixin name params, loc⟩ => do
    let params ← paramsAt (params.getD "") loc
    let (body, k) ← readOptionalBlock { cx with inMixin := true } rest
    return ([.mixin loc name params body], k)
  | ⟨.call name computed args, loc⟩ => do
    let name ← callName name computed loc
    let args ← callArguments args loc
    let (n, k) ← readElement cx loc name "mixin call" rest (some args)
    return ([n], k)
  | ⟨.block name mode, loc⟩ => do
    let (body, k) ← readOptionalBlock cx rest
    return ([.namedBlock loc name mode body], k)
  | ⟨.slot, loc⟩ =>
    if cx.inMixin then return ([.slot loc], 0) else .error ⟨.slotOutsideMixin, loc⟩
  | ⟨.yield, loc⟩ => return ([.yield loc], 0)
  | ⟨.inherits, loc⟩ => do
    let path ← readPath cx.stop rest
    return ([.inherits loc path], 1)
  | ⟨.includes filter, loc⟩ => do
    let path ← readPath cx.stop rest
    if isRawInclude path filter then return ([.rawInclude loc path filter], 1)
    else do
      let (content, k) ← readOptionalBlock cx rest.tail
      return ([.includes loc path content], k + 1)
  | ⟨.filter name, loc⟩ => readFilter cx.stop name loc rest
  | ⟨.otherwise _, loc⟩ | ⟨.elseIf _, loc⟩ => .error ⟨.strayElse, loc⟩
  | _ => unexpected cx.stop (t :: rest) .node
termination_by (rest.length + 1, 3)

/-- The nodes of the construct here; there has to be one. -/
def Node.readHere (cx : TreeContext) (ts : List Token) : Except ParseError (List Node × Nat) :=
  match ts with
  | [] => unexpected cx.stop [] .node
  | t :: rest => do
    let (ns, k) ← Node.read cx t rest
    return (ns, k + 1)
termination_by (ts.length, 4)

/-- The nodes of a block behind its indentation, through its end. -/
def readItems (cx : TreeContext) (ts : List Token) : Except ParseError (List Node × Nat) :=
  match ts with
  | ⟨.outdent, _⟩ :: _ => return ([], 1)
  | ⟨.newline, _⟩ :: rest => do
    let (ns, k) ← readItems cx rest
    return (ns, k + 1)
  | [] | ⟨.eos, _⟩ :: _ => unexpected cx.stop ts .outdent
  | t :: rest => do
    let (ns, k) ← Node.read cx t rest
    let (more, m) ← readItems cx (rest.drop k)
    return (ns ++ more, k + m + 1)
termination_by (ts.length, 4)

def readOptionalBlock (cx : TreeContext) (ts : List Token) :
    Except ParseError (List Node × Nat) :=
  match ts with
  | ⟨.indent _, _⟩ :: rest => do
    let (ns, k) ← readItems cx rest
    return (ns, k + 1)
  | _ => return ([], 0)
termination_by (ts.length, 0)

/-- What may follow in the line of a tag or call: nodes, or the slash of a tag without content. -/
def readInline (cx : TreeContext) (closable : Bool) (ts : List Token) :
    Except ParseError (List Node × Bool × Nat) :=
  match ts with
  | ⟨.text _, loc⟩ :: _ => do
    let (raw, k) := textRun false ts
    return ([← cx.textNode raw loc], false, k)
  | ⟨.code source buffered escape, loc⟩ :: _ => do
    return ([← Node.ofCode source buffered escape loc], false, 1)
  | ⟨.colon, _⟩ :: rest => do
    let (ns, k) ← Node.readHere cx rest
    return (ns, false, k + 1)
  | ⟨.slash, _⟩ :: _ =>
    if closable then return ([], true, 1) else unexpected cx.stop ts .inlineContent
  | [] | ⟨.newline, _⟩ :: _ | ⟨.indent _, _⟩ :: _ | ⟨.outdent, _⟩ :: _ | ⟨.eos, _⟩ :: _
  | ⟨.pipelessStart, _⟩ :: _ => return ([], false, 0)
  | _ => unexpected cx.stop ts .inlineContent
termination_by (ts.length, 1)

/-- A tag, or a call when arguments are given, behind its name. -/
def readElement (cx : TreeContext) (loc : Location) (name : NameSource) (shown : String)
    (ts : List Token) (args : Option (List Expr) := none) : Except ParseError (Node × Nat) := do
  let (head, k) ← Head.read cx.stop {} ts
  let textOnly := (ts.drop k).head?.any fun t => t.kind == .dot
  let k := if textOnly then k + 1 else k
  let (inline, selfClosing, m) ← readInline cx args.isNone (ts.drop k)
  let (below, n) ←
    if textOnly then cx.textBody (ts.drop (k + m)) else readOptionalBlock cx (ts.drop (k + m))
  let body := inline ++ below
  if selfClosing ∧ body ≠ [] then
    .error ⟨.selfClosingContent shown, placeOf cx.stop (ts.drop k)⟩
  else match args with
    | none => return (.tag loc name head selfClosing textOnly body, k + m + n)
    | some args =>
      return (.call loc name args head (if body = [] then none else some body), k + m + n)
termination_by (ts.length, 2)
decreasing_by
  all_goals
    simp only [Prod.lex_def, List.length_drop]
    omega

def readConditional (cx : TreeContext) (loc : Location) (negate : Bool) (source : String)
    (rest : List Token) : Except ParseError (List Node × Nat) := do
  let test ← expressionAt source loc
  let (body, k) ← readOptionalBlock cx rest
  let (next, m) ← readOtherwise cx (rest.drop k)
  return ([.conditional loc negate test body next], k + m)
termination_by (rest.length, 2)
decreasing_by
  · simp [Prod.lex_def]
  · simp only [Prod.lex_def, List.length_drop]
    omega

/-- The branches behind the first one of a condition. -/
def readOtherwise (cx : TreeContext) (ts : List Token) : Except ParseError (Otherwise × Nat) :=
  let skipped := beforeElse true ts
  match _h : ts.drop skipped with
  | ⟨.elseIf source, loc⟩ :: rest => do
    let test ← expressionAt source loc
    let (body, k) ← readOptionalBlock cx rest
    let (next, m) ← readOtherwise cx (rest.drop k)
    return (.elseIf loc test body next, skipped + 1 + k + m)
  | ⟨.otherwise (some _), loc⟩ :: _ => .error ⟨.elseWithCondition, loc⟩
  | ⟨.otherwise none, loc⟩ :: rest => do
    let (body, k) ← readElseBody cx rest
    return (.otherwise loc body, skipped + 1 + k)
  | _ => return (.nothing, 0)
termination_by (ts.length, 1)
decreasing_by
  all_goals
    have := length_lt_of_drop _h
    simp only [Prod.lex_def, List.length_drop]
    omega

/-- The body of an `else`: a construct behind a colon, or a block. -/
def readElseBody (cx : TreeContext) (ts : List Token) : Except ParseError (List Node × Nat) :=
  match ts with
  | ⟨.colon, _⟩ :: rest => do
    let (ns, k) ← Node.readHere cx rest
    return (ns, k + 1)
  | ts => readOptionalBlock cx ts
termination_by (ts.length, 1)

/-- The branches of a `case` behind its indentation, through its end; comments are passed over. -/
def readBranches (cx : TreeContext) (ts : List Token) : Except ParseError (List Branch × Nat) :=
  match ts with
  | ⟨.outdent, _⟩ :: _ => return ([], 1)
  | ⟨.newline, _⟩ :: rest => do
    let (bs, k) ← readBranches cx rest
    return (bs, k + 1)
  | ⟨.comment text buffered, loc⟩ :: rest => do
    let (_, k) ← readComment cx.stop text buffered loc rest
    let (bs, m) ← readBranches cx (rest.drop k)
    return (bs, k + m + 1)
  | ⟨.when source, loc⟩ :: rest => do
    let test ← expressionAt source loc
    let (body, k) ← readBranchBody cx rest
    let (bs, m) ← readBranches cx (rest.drop k)
    return (.mk loc (some test) body :: bs, k + m + 1)
  | ⟨.defaultCase, loc⟩ :: rest => do
    let (body, k) ← readBranchBody cx rest
    let (bs, m) ← readBranches cx (rest.drop k)
    return (.mk loc none body :: bs, k + m + 1)
  | _ => unexpected cx.stop ts .branch
termination_by (ts.length, 0)

/-- The body of a branch; without one it falls through. -/
def readBranchBody (cx : TreeContext) (ts : List Token) :
    Except ParseError (Option (List Node) × Nat) :=
  match ts with
  | ⟨.colon, _⟩ :: rest => do
    let (ns, k) ← Node.readHere cx rest
    return (some ns, k + 1)
  | ⟨.indent _, _⟩ :: rest => do
    let (ns, k) ← readItems cx rest
    return (some ns, k + 1)
  | _ => return (none, 0)
termination_by (ts.length, 0)

def readEach (cx : TreeContext) (loc : Location) (value : String) (key : Option String)
    (source : String) (rest : List Token) : Except ParseError (List Node × Nat) := do
  let e ← expressionAt source loc
  let (body, k) ← readOptionalBlock cx rest
  let m := k + beforeElse false (rest.drop k)
  match _h : rest.drop m with
  | ⟨.otherwise (some _), at_⟩ :: _ => .error ⟨.elseWithCondition, at_⟩
  | ⟨.otherwise none, _⟩ :: more => do
    let (ifEmpty, n) ← readElseBody cx more
    return ([.each loc value key e body (some ifEmpty)], m + 1 + n)
  | _ => return ([.each loc value key e body none], k)
termination_by (rest.length, 2)
decreasing_by
  · simp [Prod.lex_def]
  · have := length_lt_of_drop _h
    simp only [Prod.lex_def]
    omega

end

/-- The nodes of a whole stream. -/
def readDocument (cx : TreeContext) (ts : List Token) : Except ParseError (List Node) :=
  match ts with
  | [] | ⟨.eos, _⟩ :: _ => return []
  | ⟨.newline, _⟩ :: rest => readDocument cx rest
  | t :: rest => do
    let (ns, k) ← Node.read cx t rest
    return ns ++ (← readDocument cx (rest.drop k))
termination_by ts.length

end PugTemplate
