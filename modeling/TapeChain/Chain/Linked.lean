import Std.Data.HashMap
import Std.Data.HashSet
import TapeChain.Chain.Basic
import TapeChain.Program.Basic

/-! Chains with node identities. Two nodes with one tag are one node: lowering a program gives equal
sub-chains one tag, while a chain read from text shares nothing. -/
namespace TapeChain

inductive Linked where
  | stop (tag : Nat)
  | loop (tag : Nat) (body next : Linked)
  | move (tag : Nat) (offset : Operand) (next : Linked)
  | add (tag : Nat) (delta : Operand) (next : Linked)
  | output (tag : Nat) (next : Linked)
  | input (tag : Nat) (next : Linked)

namespace Linked

def tag : Linked → Nat
  | .stop tag => tag
  | .loop tag _ _ => tag
  | .move tag _ _ => tag
  | .add tag _ _ => tag
  | .output tag _ => tag
  | .input tag _ => tag

/-- The chain without its identities. -/
def chain : Linked → Chain
  | .stop _ => .stop
  | .loop _ body next => .loop body.chain next.chain
  | .move _ offset next => .move offset next.chain
  | .add _ delta next => .add delta next.chain
  | .output _ next => .output next.chain
  | .input _ next => .input next.chain

/-- The tags of all occurrences of nodes. -/
def tags : Linked → List Nat
  | .stop tag => [tag]
  | .loop tag body next => tag :: (body.tags ++ next.tags)
  | .move tag _ next => tag :: next.tags
  | .add tag _ next => tag :: next.tags
  | .output tag next => tag :: next.tags
  | .input tag next => tag :: next.tags

/-- The number of different nodes. -/
def distinct (l : Linked) : Nat := (Std.HashSet.ofList l.tags).size

/-- Tags every occurrence with a number of its own, from `tag` on; also gives the next free one. -/
def freshFrom (tag : Nat) : Chain → Linked × Nat
  | .stop => (.stop tag, tag + 1)
  | .loop body next =>
    let (body, free) := freshFrom (tag + 1) body
    let (next, free) := freshFrom free next
    (.loop tag body next, free)
  | .move offset next =>
    let (next, free) := freshFrom (tag + 1) next
    (.move tag offset next, free)
  | .add delta next =>
    let (next, free) := freshFrom (tag + 1) next
    (.add tag delta next, free)
  | .output next =>
    let (next, free) := freshFrom (tag + 1) next
    (.output tag next, free)
  | .input next =>
    let (next, free) := freshFrom (tag + 1) next
    (.input tag next, free)

/-- A chain in which no two nodes are shared. -/
def fresh (c : Chain) : Linked := (freshFrom 0 c).1

end Linked

/-- A node as the table of known nodes sees it: its kind, its operand and the tags of its
children. -/
inductive NodeKey where
  | stop
  | loop (body next : Nat)
  | move (offset : Operand) (next : Nat)
  | add (delta : Operand) (next : Nat)
  | output (next : Nat)
  | input (next : Nat)
  deriving DecidableEq, Hashable

/-- The nodes known so far, tagged in the order of their first use. -/
structure NodeTable where
  known : Std.HashMap NodeKey Nat

namespace NodeTable

def empty : NodeTable := ⟨∅⟩

/-- The tag of a node, a new one when the node is not known. -/
def intern (table : NodeTable) (key : NodeKey) : Nat × NodeTable :=
  match table.known[key]? with
  | some tag => (tag, table)
  | none => (table.known.size, ⟨table.known.insert key table.known.size⟩)

end NodeTable

namespace Program

/-- Lowers a program from its end to its start; what follows a loop is lowered before the loop's
body. -/
def lowerInto (table : NodeTable) : Program → Linked × NodeTable
  | .done =>
    let (tag, table) := table.intern .stop
    (.stop tag, table)
  | .move offset rest =>
    let (next, table) := lowerInto table rest
    let (tag, table) := table.intern (.move (.encode offset) next.tag)
    (.move tag (.encode offset) next, table)
  | .add delta rest =>
    let (next, table) := lowerInto table rest
    let (tag, table) := table.intern (.add (.encode delta) next.tag)
    (.add tag (.encode delta) next, table)
  | .output rest =>
    let (next, table) := lowerInto table rest
    let (tag, table) := table.intern (.output next.tag)
    (.output tag next, table)
  | .input rest =>
    let (next, table) := lowerInto table rest
    let (tag, table) := table.intern (.input next.tag)
    (.input tag next, table)
  | .loop body rest =>
    let (next, table) := lowerInto table rest
    let (body, table) := lowerInto table body
    let (tag, table) := table.intern (.loop body.tag next.tag)
    (.loop tag body next, table)

def lower (p : Program) : Linked := (lowerInto .empty p).1

end Program

end TapeChain
