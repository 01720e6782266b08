import GrammarGraph.Drawing.View
import GrammarGraph.Drawing.Witness
import GrammarGraph.Engine
import GrammarGraph.Listing
import GrammarGraph.Walk

/-! A session keeps named grammars, parsers and walks over one graph and performs
operations on them one after the other. -/
namespace GrammarGraph

abbrev Bindings (α : Type) := List (String × α)

def Bindings.put (name : String) (a : α) (bindings : Bindings α) : Bindings α :=
  (name, a) :: bindings.filter (·.1 != name)

/-- A grammar bundled with the way it is to be parsed. -/
structure Parser where
  node : NodeId
  compaction : Bool

structure Session where
  graph : Graph := {}
  parsers : Bindings Parser := []
  walks : Bindings Walk := []
deriving Inhabited

def Held.graph : Held Session Graph :=
  ⟨Session.graph, fun f s => { s with graph := f s.graph }⟩

/-- What is to be parsed with: a grammar, or a parser by its name. -/
inductive Source where
  | grammar (term : Term) (compaction : Option Bool)
  | parser (name : String)

/-- Whether a program that lays out drawings can be run. -/
abbrev Available := Bool

structure RenderOptions where
  view : Bool := true
  filename : String := "Language"
  format : String := "pdf"
  tight : Bool := true

inductive Operation where
  | bind (name : String) (term : Term)
  | list (term : Term) (force : Bool)
  | inspect (term : Term)
  | children (term : Term)
  | same (first second : Term)
  | become (term other : Term)
  | describe (term : Term)
  | nullable (term : Term)
  | emptyLike (term : Term)
  | epsLike (term : Term)
  | forest (term : Term)
  | nodeCount (term : Term)
  | recognize (symbols : List Value) (source : Source) (log : Option Level)
  | parse (symbols : List Value) (source : Source) (log : Option Level)
  | residual (symbols : List Value) (source : Source) (log : Option Level)
      (name : Option String)
  | parser (name : String) (term : Term) (compaction : Option Bool)
  | trace (symbols : List Value) (term : Term) (compaction : Bool)
  | walk (name : String) (plan : Plan)
  | call (name : String) (term : Term) (extra : List Value)
  | union (forests : List Forest)
  | cons (left right : Value)
  | combine (left right : Forest)
  | apply (transform : Transform) (witness : Value)
  | transform (transform : Transform)
  | label (symbol : Value)
  | view (term : Term) (showWitnesses : Bool) (available : Available)
  | render (term : Term) (options : RenderOptions) (available : Available)
  | draw (witness : Value) (style : String) (available : Available)
  | checkRenderer (available : Available)
  | about

/-- What a node was found to be after a symbol of a trace. -/
structure Stage where
  kind : Kind
  nullable : Bool
  emptyLike : Bool
  epsLike : Bool
  forest : Forest
  nodeCount : Nat

/-- A drawing on its way to be laid out. -/
structure Rendering where
  options : RenderOptions
  source : String

inductive Reply where
  | done
  | truth (b : Bool)
  | number (n : Nat)
  | text (s : String)
  | texts (ss : List String)
  | value (v : Value)
  | values (vs : List Value)
  | listing (l : Listing)
  | inspection (kind : Kind) (atomic forced : Bool)
  | transform (t : Transform)
  | stages (stages : List Stage)
  /-- The answer of a parse, the symbols taken, and the journal if one was kept. -/
  | parsed (answer : Reply) (consumed : Nat) (journal : Option (List (Level × String)))
  /-- The set of witnesses of a sentence; its order means nothing. -/
  | witnesses (ws : Forest)
  /-- How a walk ended, and the nodes that it visited. -/
  | walked (result : Except Fault Value) (visits : List Nat)
  | rendering (r : Rendering)

namespace Session

abbrev Act := RunOf Session

def aboutTexts : List String :=
  ["0.1.0", "PyDeriv contributors", "Apache", "Prototype"]

def onGraph (r : Run α) : Act α :=
  .inside .graph r

/-- The node of a term that must describe a language. -/
def language (ask : Ask) (term : Term) : Act NodeId :=
  onGraph do (← term.build ask []).language

def listing (n : NodeId) : Act Reply :=
  .read fun s => .listing (Listing.ofGraph s.graph n)

/-- Overwrites a node and drops what the walks know about it. -/
def become (n other : NodeId) (s : Session) : Session :=
  { s with
    graph := s.graph.become n other
    walks := s.walks.map fun (name, walk) => (name, walk.forget n) }

/-- The node to parse with, and whether to compact. -/
def resolve (ask : Ask) (defaultCompaction : Bool) : Source → Act (NodeId × Bool)
  | .grammar term compaction => do
    let n ← language ask term
    pure (n, compaction.getD defaultCompaction)
  | .parser name => do
    match ← .read (·.parsers.lookup name) with
    | some parser => pure (parser.node, parser.compaction)
    | none => throw (.unboundParser name)

/-- Runs `r` with a new journal and closes the journal, however `r` ends. -/
def journaled (log : Option Level) (r : Run α) :
    Act (α × Option (List (Level × String))) :=
  onGraph do
    .update fun g => { g with journal := log.map fun level => { level } }
    let result ← r.outcome
    let entries ← .read fun g => g.journal.map (·.entries.toList)
    .update fun g => { g with journal := none }
    return (← .ofExcept result, entries)

def recognize (ask : Ask) (symbols : List Value) (source : Source) (log : Option Level) :
    Act Reply := do
  let (n, compaction) ← resolve ask false source
  let ((accepted, consumed), journal) ←
    journaled log (Parse.recognize ask compaction symbols n)
  pure (.parsed (.truth accepted) consumed journal)

def parse (ask : Ask) (symbols : List Value) (source : Source) (log : Option Level) :
    Act Reply := do
  let (n, compaction) ← resolve ask true source
  let ((witnesses, consumed), journal) ← journaled log (Parse.parse ask compaction symbols n)
  pure (.parsed (.witnesses witnesses) consumed journal)

def residual (ask : Ask) (symbols : List Value) (source : Source) (log : Option Level)
    (name : Option String) : Act Reply := do
  let (n, compaction) ← resolve ask true source
  let (r, journal) ← journaled log (Parse.residual ask compaction symbols n)
  if let some x := name then
    onGraph (.update (Graph.bind x r.node))
  pure (.parsed (← listing r.node) r.consumed journal)

def stage (ask : Ask) (n : NodeId) : Run Stage := do
  let kind ← Run.kind n
  let nullable ← ask.nullable n
  let emptyLike ← ask.emptyLike n
  let epsLike ← ask.epsLike n
  let forest ← ask.forest n
  let nodeCount ← ask.nodeCount n
  pure { kind, nullable, emptyLike, epsLike, forest, nodeCount }

def trace (ask : Ask) (compaction : Bool) : List Value → NodeId → Run (List Stage)
  | [], _ => pure []
  | symbol :: rest, n => do
    let next ← Parse.advance ask compaction symbol n
    let here ← stage ask next
    return here :: (← trace ask compaction rest next)

/-- The walk `name` as a part of a session, on its way from one node to the others. -/
def touring (name : String) (walk : Walk) : Held Session Tour :=
  ⟨fun s => { graph := s.graph, walk }, fun f s =>
    let tour := f { graph := s.graph, walk }
    { s with graph := tour.graph, walks := Bindings.put name tour.walk s.walks }⟩

def call (ask : Ask) (bound : Nat) (name : String) (term : Term) (extra : List Value) :
    Act Reply := do
  match ← .read (·.walks.lookup name) with
  | none => throw (.unboundWalk name)
  | some walk =>
    let n ← language ask term
    .inside (touring name walk) do
      let result ← (Tour.follow ask extra bound n).outcome
      let visits ← .read (·.visits.toList)
      pure (.walked result visits)

def requireRenderer (available : Available) : Act Unit :=
  if available then pure () else throw .rendererMissing

def view (showWitnesses : Bool) (available : Available) (n : NodeId) : Act Dot.Document := do
  requireRenderer available
  .read fun s => Drawing.view s.graph showWitnesses n

/-- An operation by way of `ask`. Its own surveys and walks go no deeper than `bound`. -/
def operate (ask : Ask) (bound : Nat) : Operation → Act Reply
  | .bind name term => do
    let n ← language ask term
    onGraph (.update (Graph.bind name n))
    listing n
  | .list term force => do
    let n ← language ask term
    if force then return .listing (← onGraph (Listing.forced ask bound n)) else listing n
  | .inspect term => do
    let n ← language ask term
    let node ← onGraph (Run.node n)
    pure (.inspection node.kind node.kind.isAtomic node.isForced)
  | .children term => do
    let n ← language ask term
    let children ← onGraph (ask.children n)
    return .texts (← onGraph (children.mapM fun c => do return (← Run.kind c).name))
  | .same first second => do
    let a ← language ask first
    let b ← language ask second
    pure (.truth (a == b))
  | .become term other => do
    let n ← language ask term
    let other ← language ask other
    .update (become n other)
    listing n
  | .describe term => do
    let n ← language ask term
    return .text (← onGraph (Run.node n)).describe
  | .nullable term => do
    let n ← language ask term
    return .truth (← onGraph (ask.nullable n))
  | .emptyLike term => do
    let n ← language ask term
    return .truth (← onGraph (ask.emptyLike n))
  | .epsLike term => do
    let n ← language ask term
    return .truth (← onGraph (ask.epsLike n))
  | .forest term => do
    let n ← language ask term
    return .values (← onGraph (ask.forest n))
  | .nodeCount term => do
    let n ← language ask term
    return .number (← onGraph (ask.nodeCount n))
  | .recognize symbols source log => recognize ask symbols source log
  | .parse symbols source log => parse ask symbols source log
  | .residual symbols source log name => residual ask symbols source log name
  | .parser name term compaction => do
    let node ← language ask term
    let parser : Parser := { node, compaction := compaction.getD true }
    .update fun s => { s with parsers := s.parsers.put name parser }
    pure (.truth parser.compaction)
  | .trace symbols term compaction => do
    let n ← language ask term
    return .stages (← onGraph (trace ask compaction symbols n))
  | .walk name plan => do
    .update fun s => { s with walks := s.walks.put name { plan } }
    pure .done
  | .call name term extra => call ask bound name term extra
  | .union forests => return .values (← .ofExcept (Forest.union forests))
  | .cons left right => pure (.value (Forest.cons left right))
  | .combine left right => return .values (← .ofExcept (Forest.combine left right))
  | .apply transform w => return .value (← .ofExcept (transform.apply w))
  | .transform t => pure (.transform t)
  | .label symbol => pure (.text symbol.label)
  | .view term showWitnesses available => do
    let n ← language ask term
    return .text (← view showWitnesses available n).text
  | .render term options available => do
    let n ← language ask term
    let document ← view true available n
    let document := if options.tight then Drawing.tighten document else document
    pure (.rendering { options, source := document.text })
  | .draw w style available => do
    requireRenderer available
    let style ← .ofExcept (Drawing.TreeStyle.named style)
    pure (.text (Drawing.witness style w).text)
  | .checkRenderer available => pure (.truth available)
  | .about => pure (.texts aboutTexts)

/-- Performs an operation. Nothing it does goes deeper than `bound`. -/
def perform (bound : Nat) : Operation → Act Reply :=
  operate (Engine.run bound) bound

/-- Whether the operation would overwrite one of the two nodes that every grammar shares. A program
with such an operation is refused as a whole. -/
def overwritesShared (bound : Nat) (s : Session) : Operation → Bool
  | .become term _ =>
    match language (Engine.run bound) term s with
    | some (.ok n, _) => n == .empty || n == .eps
    | _ => false
  | _ => false

end Session

end GrammarGraph
