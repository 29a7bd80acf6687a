import Hypertext.Proofs.Node.Parse

/-!
# Document order

A tree under construction already has an order: that of the tree it becomes when everything
open is closed. Finishing elements leaves that tree as it is, whatever makes them finish, and
each token adds at most one stop at the end of its walk. So a tree walks through its tokens.
-/

namespace Hypertext

set_option autoImplicit false

/-- What a token adds to the walk of a tree; end tags and document types add nothing. -/
def Token.stop? : Token → Option Node.Stop
  | .startTag name attributes _ => some (.element name attributes)
  | .text run => some (.text run)
  | .comment body => some (.comment body)
  | .endTag _ | .doctype _ => none

namespace Node

/-- A stop of a walk, with the names of the elements around it from the innermost outward. -/
structure Place where
  ancestors : List Text
  stop : Stop
  deriving DecidableEq, Repr

mutual

/-- The walk of a node that stands below some ancestors. -/
def places (ancestors : List Text) : Node → List Place
  | element name attributes children =>
    ⟨ancestors, .element name attributes⟩ :: placesAll (name :: ancestors) children
  | text run => [⟨ancestors, .text run⟩]
  | comment body => [⟨ancestors, .comment body⟩]

def placesAll (ancestors : List Text) : List Node → List Place
  | [] => []
  | node :: rest => places ancestors node ++ placesAll ancestors rest

end

@[simp] theorem placesAll_append (ancestors : List Text) (nodes more : List Node) :
    placesAll ancestors (nodes ++ more) =
      placesAll ancestors nodes ++ placesAll ancestors more := by
  induction nodes with
  | nil => rfl
  | cons node rest ih => simp [placesAll, ih]

mutual

theorem map_stop_places (ancestors : List Text) :
    ∀ node : Node, (node.places ancestors).map Place.stop = node.walk
  | element name attributes children => by
    rw [places, walk, List.map_cons, map_stop_placesAll (name :: ancestors) children]
  | text _ => rfl
  | comment _ => rfl

theorem map_stop_placesAll (ancestors : List Text) :
    ∀ nodes : List Node, (placesAll ancestors nodes).map Place.stop = walkAll nodes
  | [] => rfl
  | node :: rest => by
    rw [placesAll, walkAll, List.map_append, map_stop_places ancestors node,
      map_stop_placesAll ancestors rest]

end

end Node

namespace Builder

@[simp] theorem names_finish (b : Builder) : b.finish.names = b.names.tail := by
  unfold finish
  split
  · next h => simp [names, h]
  · next e outer h =>
    rw [names_append]
    simp [names, h]

@[simp] theorem names_finishMany (b : Builder) (n : Nat) :
    (b.finishMany n).names = b.names.drop n := by
  induction n generalizing b with
  | zero => rfl
  | succ n ih => rw [finishMany, ih, names_finish, List.drop_tail]

/-- What is open is finished in the end anyway. -/
theorem nodes_finish (b : Builder) : b.finish.nodes = b.nodes := by
  cases h : b.opened with
  | nil => rw [finish, h]
  | cons e outer =>
    have hlength : b.finish.opened.length = outer.length := by
      have hnames := congrArg List.length (names_finish b)
      simpa [names, h] using hnames
    rw [nodes, hlength, nodes, h, List.length_cons, finishMany]

theorem nodes_finishMany (b : Builder) (n : Nat) : (b.finishMany n).nodes = b.nodes := by
  induction n generalizing b with
  | zero => rfl
  | succ n ih => rw [finishMany, ih, nodes_finish]

theorem nodes_finishImplied (b : Builder) (rules : List Tag.ImpliedEnd) :
    (b.finishImplied rules).nodes = b.nodes := by
  induction rules generalizing b with
  | nil => rfl
  | cons rule rules ih => rw [finishImplied, ih, nodes_finishMany]

/-- A node that is added comes last, inside everything that is open. -/
theorem placesAll_nodes_append (b : Builder) (node : Node) :
    Node.placesAll [] (b.append node).nodes =
      Node.placesAll [] b.nodes ++ node.places b.names := by
  induction hopened : b.opened generalizing b node with
  | nil =>
    have happend : b.append node = { b with roots := node :: b.roots } := by
      rw [append, hopened]
    simp [happend, nodes, finishMany, names, hopened, Node.placesAll]
  | cons e outer ih =>
    have happend : (b.append node).finish =
        append { b with opened := outer }
          (OpenElement.node { e with children := node :: e.children }) := by
      rw [append, hopened, finish]
    have hfinish : b.finish = append { b with opened := outer } e.node := by
      rw [finish, hopened]
    have hnames : b.names = e.name :: names { b with opened := outer } := by
      simp [names, hopened]
    rw [← nodes_finish (b.append node), ← nodes_finish b, happend, hfinish, ih _ _ rfl, ih _ _ rfl,
      hnames]
    simp [OpenElement.node, Node.places, Node.placesAll]

theorem placesAll_nodes_begin (b : Builder) (name : Text) (attributes : List Attribute) :
    Node.placesAll [] (b.begin name attributes).nodes =
      Node.placesAll [] b.nodes ++ [⟨b.names, .element name attributes⟩] := by
  have hfinish := finish_appendAll_begin b name attributes []
  rw [← nodes_finish]
  change Node.placesAll [] ((b.begin name attributes).appendAll []).finish.nodes = _
  rw [hfinish, placesAll_nodes_append]
  rfl

/-- The names of the elements around what a token adds. -/
def namesAround (b : Builder) : Token → List Text
  | .startTag name _ _ => (b.finishImplied (Tag.impliedEnds name)).names
  | _ => b.names

/-- A token adds at most one place, and nothing that was there goes elsewhere. -/
theorem placesAll_nodes_step (b : Builder) (token : Token) :
    Node.placesAll [] (b.step token).nodes = Node.placesAll [] b.nodes ++
      (token.stop?.map (Node.Place.mk (b.namesAround token))).toList := by
  cases token with
  | doctype body => simp [step, Token.stop?]
  | comment body => exact placesAll_nodes_append b (.comment body)
  | text run => exact placesAll_nodes_append b (.text run)
  | startTag name attributes selfClosing =>
    rw [step, ← nodes_finishImplied b (Tag.impliedEnds name)]
    cases selfClosing with
    | true => exact placesAll_nodes_append _ (.element name attributes [])
    | false => exact placesAll_nodes_begin _ name attributes
  | endTag name =>
    rw [step]
    split
    · simp [nodes_finishMany, Token.stop?]
    · simp [Token.stop?]

theorem walkAll_nodes_run (b : Builder) (tokens : List Token) :
    Node.walkAll (b.run tokens).nodes =
      Node.walkAll b.nodes ++ tokens.filterMap Token.stop? := by
  induction tokens generalizing b with
  | nil => simp [run]
  | cons token tokens ih =>
    have hstep := congrArg (List.map Node.Place.stop) (placesAll_nodes_step b token)
    rw [List.map_append, Node.map_stop_placesAll, Node.map_stop_placesAll] at hstep
    rw [run, List.foldl_cons, ← run, ih, hstep, List.append_assoc]
    cases hstop : token.stop? with
    | none => simp [hstop]
    | some stop => simp [hstop]

end Builder

namespace Node

/-- Nothing is lost, doubled or moved: a tree walks through the tokens it was built from. -/
theorem walkAll_parse (s : Text) :
    walkAll (parse s) = (Token.readAll s).filterMap Token.stop? := by
  rw [parse, ofTokens, Builder.walkAll_nodes_run]
  rfl

end Node

end Hypertext
