import Manifest.Fault
import Manifest.Visit.Trail

/-!
# Visits

A visit follows a path from the root of a document to its targets, which a `Visitor` may rewrite and
accept or turn down.  A segment `-` at an array leads to its first element in which the rest of the
path succeeds or, when the visitor wants every target, to all elements one after the other.

* At the end of the path the target is rewritten first and judged afterwards (`target`).  Nothing in
  place of the target removes it.  The root itself is never replaced (`run`).
* A last key that a record does not have is a target when the visitor rewrites.
* A last segment `-` makes a rewriting visitor that wants one target append what it writes, first
  after looking at the first element, then at the second and so on (`appendScan`).  As every value
  that is appended and turned down makes the array longer, this may go on for ever, so it is limited
  by a budget.

What a visitor is shown, and what was missed, is recorded in a `History`, latest event first.  A
visitor may let its answers depend on it.
-/

namespace Manifest

/-- Something that happened during a visit. -/
inductive Event where
  /-- A value was offered for rewriting. -/
  | rewritten (value : Value)
  /-- A value was offered for acceptance: the one at the end of the trail, which with `left` put there
  is then the document. -/
  | sighted (value : Value) (trail : Trail) (left : Option Value)
  /-- Nothing was found at the path, or what was there was turned down. -/
  | missed (path : Path)

/-- The events of a visit, latest first. -/
abbrev History := List Event

/-- What a visit does at its targets. -/
structure Visitor where
  /-- Whether a traversal leads to every element instead of the first that succeeds. -/
  every : Bool := false
  /-- Whether a target, shown with its path, is accepted. -/
  accept : History → Value → Path → Except Fault Bool := fun _ _ _ => .ok true
  /-- What is written in place of a target; `absent` removes it. -/
  rewrite : Option (History → Value → Except Fault Value) := none

/-- How a visit ended, what it left behind and what happened in it. -/
structure Outcome (α : Type) where
  result : Except Fault Value
  left : α
  history : History

namespace Outcome

variable {α β : Type}

/-- Changes what is left behind. -/
def map (f : α → β) (o : Outcome α) : Outcome β := ⟨o.result, f o.left, o.history⟩

/-- A visit that fails on the spot. -/
def fail (fault : Fault) (left : α) (history : History) : Outcome α := ⟨.error fault, left, history⟩

/-- A visit that finds nothing under `segment`; an empty segment is left out of the report. -/
def miss (walked : Path) (segment : String) (left : α) (history : History) : Outcome α :=
  fail (.notFound segment) left
    (.missed (if segment = "" then walked else walked ++ [segment]) :: history)

end Outcome

namespace Visitor

/-- Shows a value to the visitor.  A value turned down counts as missed at the path walked. -/
def judge {α : Type} (v : Visitor) (walked : Path) (trail : Trail) (value : Value)
    (stands : Option Value) (left : α) (history : History) : Outcome α :=
  let seen := .sighted value trail stands :: history
  match v.accept history value trail.path with
  | .error fault => .fail fault left seen
  | .ok true => ⟨.ok value, left, seen⟩
  | .ok false => .miss walked "" left seen

/-- The end of the path: `stands` is there, or nothing. -/
def target (v : Visitor) (trail : Trail) (stands : Option Value) (history : History) :
    Outcome (Option Value) :=
  let value := stands.getD .absent
  match v.rewrite with
  | none => v.judge trail.path trail value stands stands history
  | some f =>
    match f history value with
    | .error fault => .fail fault stands (.rewritten value :: history)
    | .ok new =>
      v.judge trail.path trail new new.present? new.present? (.rewritten value :: history)

/-- The root as a target: it is shown rewritten but stays as it is. -/
def targetRoot (v : Visitor) (root : Value) : Outcome Value :=
  match v.rewrite with
  | none => v.judge [] [] root (some root) root []
  | some f =>
    match f [] root with
    | .error fault => .fail fault root [.rewritten root]
    | .ok new => v.judge [] [] new (some root) root [.rewritten root]

/-! ## Traversals -/

/-- Offers the element at a position and appends what is written for it; nothing removes the
element. -/
def appendAt (v : Visitor) (f : History → Value → Except Fault Value) (trail : Trail)
    (items : List Value) (position : Nat) (history : History) : Outcome (List Value) :=
  let value := items[position]?.getD .absent
  let walked := trail.path ++ [indexSegment position]
  let offered := .rewritten value :: history
  match f history value with
  | .error fault => .fail fault items offered
  | .ok new =>
    match new.present? with
    | none =>
      let frame := Frame.element (indexSegment position) (items.take position).reverse
        (items.drop (position + 1))
      v.judge walked (frame :: trail) new none (items.eraseIdx position) offered
    | some _ =>
      let frame := Frame.element (indexSegment items.length) items.reverse []
      v.judge walked (frame :: trail) new (some new) (items ++ [new]) offered

/-- Appends after looking at the element at a position, or at the next one if that fails, at most
`fuel` times.  The end of the array is the one at the time of looking. -/
def appendScan (v : Visitor) (f : History → Value → Except Fault Value) (trail : Trail) :
    Nat → List Value → Nat → History → Outcome (List Value)
  | fuel, items, position, history =>
    if items.length ≤ position then .miss trail.path traversal items history
    else
      match fuel with
      | 0 => .fail .endless items history
      | fuel + 1 =>
        let o := v.appendAt f trail items position history
        match o.result with
        | .ok _ => o
        | .error fault =>
          if fault.isStructural then v.appendScan f trail fuel o.left (position + 1) o.history
          else o

/-- A visit of what is below a node, given the trail to it. -/
abbrev Descent := Trail → Value → History → Outcome (Option Value)

/-- Visits the elements ahead one after the other until one succeeds; those behind, nearest first,
keep what the visits wrote in them. -/
def scanFirst (descend : Descent) (trail : Trail) :
    List Value → List Value → History → Outcome (List Value)
  | behind, [], history => .miss trail.path traversal behind.reverse history
  | behind, x :: ahead, history =>
    let o := descend (.element (indexSegment behind.length) behind ahead :: trail) x history
    match o.result with
    | .ok r => ⟨.ok r, rejoin behind o.left ahead, o.history⟩
    | .error fault =>
      if fault.isStructural then scanFirst descend trail (o.left.toList ++ behind) ahead o.history
      else .fail fault (rejoin behind o.left ahead) o.history

/-- The result of several successful visits: one stands for itself, more are put into an array. -/
def collect : List Value → Option Value
  | [] => none
  | [r] => some r
  | results => some (.array (results.filterMap Value.present?))

/-- Visits all elements ahead one after the other and collects the results of those that succeed;
the results so far and the elements behind are kept latest first. -/
def scanAll (descend : Descent) (trail : Trail) :
    List Value → List Value → List Value → History → Outcome (List Value)
  | results, behind, [], history =>
    match collect results.reverse with
    | none => .miss trail.path traversal behind.reverse history
    | some r => ⟨.ok r, behind.reverse, history⟩
  | results, behind, x :: ahead, history =>
    let o := descend (.element (indexSegment behind.length) behind ahead :: trail) x history
    match o.result with
    | .ok r => scanAll descend trail (r :: results) (o.left.toList ++ behind) ahead o.history
    | .error fault =>
      if fault.isStructural then
        scanAll descend trail results (o.left.toList ++ behind) ahead o.history
      else .fail fault (rejoin behind o.left ahead) o.history

/-- The segment `-` at an array, with `last` if no segment follows. -/
def traverse (v : Visitor) (budget : Nat) (descend : Descent) (last : Bool) (trail : Trail)
    (items : List Value) (history : History) : Outcome (List Value) :=
  if v.every then scanAll descend trail [] [] items history
  else
    match v.rewrite, last with
    | some f, true =>
      if items.isEmpty then v.appendAt f trail items 0 history
      else v.appendScan f trail (items.length + budget) items 0 history
    | _, _ => scanFirst descend trail [] items history

/-! ## The way down -/

/-- Follows a path from a node on. -/
def visit (v : Visitor) (budget : Nat) : Path → Descent
  | [], trail, node, history => v.target trail (some node) history
  | segment :: rest, trail, node, history =>
    let enter := fun (frame : Frame) (child : Value) =>
      (v.visit budget rest (frame :: trail) child history).map fun left => some (frame.fill left)
    match node with
    | .array items =>
      match Role.ofSegment segment with
      | .key => .fail (.missingArrayTraversal trail.key) (some node) history
      | .index n =>
        match items[n]? with
        | none => .miss trail.path segment (some node) history
        | some child => enter (.element segment (items.take n).reverse (items.drop (n + 1))) child
      | .any =>
        (v.traverse budget (v.visit budget rest) rest.isEmpty trail items history).map fun items =>
          some (.array items)
    | .record kind members =>
      if (Role.ofSegment segment).ofArray then .fail (.notAnArray trail.key) (some node) history
      else
        match Fields.get? members segment with
        | some child => enter (.member kind segment members) child
        | none =>
          if rest.isEmpty && v.rewrite.isSome then
            (v.target (.member kind segment members :: trail) none history).map fun left =>
              some ((Frame.member kind segment members).fill left)
          else .miss trail.path segment (some node) history
    | .absent => .fail (.notTraversable (trail.key ++ " is nil")) (some node) history
    | .vacant => .fail (.notTraversable (trail.key ++ " is nil")) (some node) history
    | .null => .fail (.notTraversable (trail.key ++ " is nil")) (some node) history
    | _ => .fail (.notTraversable (trail.key ++ " is " ++ node.typeName)) (some node) history

/-- Visits a document.  The budget says how many elements beyond those that an array has at first an
appending traversal may look at; a visitor that accepts what it appends needs none. -/
def run (v : Visitor) (budget : Nat) (root : Value) (path : Path) : Outcome Value :=
  if path.isEmpty then v.targetRoot root
  else (v.visit budget path [] root []).map fun left => left.getD root

end Visitor

end Manifest
