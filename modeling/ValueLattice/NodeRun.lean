import ValueLattice.Construct
/-!
# Runs of nodes

What can be asked of nodes, and what a sequence of requests comes to. An operation makes a new node,
from values or from an earlier node, and leaves the earlier ones alone. It makes at most one array
of children and one map of annotations, so one identity serves for both: the identities of children
are never compared with those of annotations.

* `NodeOp`, `NodeOp.run`: the operations;
* `NodeOp.change`: what an operation makes anew, and what it shares;
* `NodeRun`, `NodeRun.perform`: the nodes made so far, and the next of them;
* `Node.Within`, `NodeOp.Given`, `NodeRun.Leads`: runs that are given no nodes but their own.
-/

namespace ValueLattice

/-! ## Operations -/

/-- What can be asked of nodes: constructions, and updates of a node. -/
inductive NodeOp
  | plain (name : String) (children : List Value)
  | plainWithAnnos (name : String) (children : List Value) (annos : List (String × Value))
  | ofCtor (t : Ty) (children : List Value)
  | construct (t : Ty) (children : List Value)
  | constructNamed (adt name : String) (children : List Value)
  | constructWithAnnos (t : Ty) (children : List Value) (annos : List (String × Value))
  | set (of : Node) (i : Nat) (x : Value)
  | setLabel (of : Node) (l : String) (x : Value)
  | setAnno (of : Node) (l : String) (x : Value)
  | setAnnos (of : Node) (updates : List (String × Value))
  | removeAnno (of : Node) (l : String)
  | removeAnnos (of : Node)

/-- What an operation makes anew. -/
inductive NodeChange
  /-- The children, and the annotations if there are any to begin with. -/
  | all
  /-- The children of an earlier node. -/
  | children (of : Node)
  /-- The annotations of an earlier node. -/
  | annos (of : Node)
  /-- Nothing: an earlier node loses its annotations. -/
  | cleared (of : Node)

/-- The earlier node that is changed. -/
def NodeChange.of? : NodeChange → Option Node
  | all => none
  | children m | annos m | cleared m => some m

namespace NodeOp

/-- Makes the node; the parts that are made for it have the given identity. -/
def run (r : Registry) (id : Nat) : NodeOp → Checked Node
  | plain l xs => return Node.plain id l xs
  | plainWithAnnos l xs as => liftM (ValueLattice.plainWithAnnos id id r l xs as)
  | ofCtor t xs => liftM (Node.ofCtor id t xs)
  | construct t xs => ValueLattice.construct id t xs
  | constructNamed o l xs => ValueLattice.constructNamed id r o l xs
  | constructWithAnnos t xs as => ValueLattice.constructWithAnnos id id r t xs as
  | set m i x => liftM (m.set id i x)
  | setLabel m l x => liftM (m.setLabel id l x)
  | setAnno m l x => liftM (m.setAnno id r l x)
  | setAnnos m as => liftM (m.setAnnos id r as)
  | removeAnno m l => return m.removeAnno id l
  | removeAnnos m => return m.removeAnnos

/-- The values that the operation is given. -/
def values : NodeOp → List Value
  | plain _ xs | ofCtor _ xs | construct _ xs | constructNamed _ _ xs => xs
  | plainWithAnnos _ xs as | constructWithAnnos _ xs as => xs ++ as.map Prod.snd
  | set _ _ x | setLabel _ _ x | setAnno _ _ x => [x]
  | setAnnos _ as => as.map Prod.snd
  | removeAnno .. | removeAnnos _ => []

/-- The types that the operation is given. -/
def types : NodeOp → List Ty
  | ofCtor t _ | construct t _ | constructWithAnnos t _ _ => [t]
  | _ => []

/-- What the operation makes anew. -/
def change : NodeOp → NodeChange
  | set m .. | setLabel m .. => .children m
  | setAnno m .. | setAnnos m _ | removeAnno m _ => .annos m
  | removeAnnos m => .cleared m
  | _ => .all

/-- The node that the operation updates. -/
def receiver? (op : NodeOp) : Option Node := op.change.of?

end NodeOp

/-! ## Runs -/

/-- The nodes made so far, and the identity for the next. -/
structure NodeRun where
  made : List Node
  next : Nat

/-- The node occurs in the value, at any depth. -/
inductive Node.Within (n : Node) : Value → Prop
  | here {v : Value} (h : v.node? = some n) : Within n v
  | inside {v x : Value} (hx : x ∈ v.contents) (h : Within n x) : Within n v

/-- The operation is given no nodes but those among `made`. -/
structure NodeOp.Given (op : NodeOp) (made : List Node) : Prop where
  receiver : ∀ m ∈ op.receiver?, m ∈ made
  within : ∀ x ∈ op.values, ∀ m : Node, m.Within x → m ∈ made

namespace NodeRun

/-- Before any node is made. -/
def start : NodeRun := ⟨[], Node.noAnnos + 1⟩

/-- Performs an operation. A failure makes no node. -/
def perform (r : Registry) (op : NodeOp) (s : NodeRun) : NodeRun :=
  match (op.run r s.next).start.val with
  | .ok n => ⟨s.made ++ [n], s.next + 1⟩
  | .error _ => s

/-- Operations lead from one state to another. Each has the declarations of its time. -/
inductive Leads (s : NodeRun) : NodeRun → Prop
  | refl : Leads s s
  | step {t : NodeRun} {op : NodeOp} (r : Registry) (h : Leads s t) (hg : op.Given t.made) :
    Leads s (t.perform r op)

end NodeRun

end ValueLattice
