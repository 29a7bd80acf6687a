import Hypertext.Compose
import Hypertext.Source
import Hypertext.Proofs.Node.Parse
import Hypertext.Proofs.Text.Reference

/-!
# Components

A component is a text or an element around other components, composed from the inside
outward: texts are escaped once, what was composed goes in as it is. Parsing the outcome gives
the elements back with the texts between them, and a reader sees the texts that were put in.
-/

namespace Hypertext

set_option autoImplicit false

inductive Component where
  | leaf (s : Text)
  | element (name : Text) (children : List Component)
  deriving Repr

namespace Component

mutual

def build : Component → Placeholder
  | leaf s => .text s
  | element name children =>
    .markup <| compose ['<' :: (name ++ ['>']), '<' :: '/' :: (name ++ ['>'])]
      [.sequence (buildAll children)]

def buildAll : List Component → List Placeholder
  | [] => []
  | c :: rest => c.build :: buildAll rest

end

def document (forest : List Component) : Markup :=
  compose [[], []] [.sequence (buildAll forest)]

mutual

/-- Whether the elements of a component have content and end no element around them. -/
def WellPlaced (ancestors : List Text) : Component → Prop
  | leaf _ => True
  | element name children =>
    Node.IsStart ancestors name [] ∧ Tag.isVoid name = false ∧ Tag.isRawText name = false ∧
      AllWellPlaced (name :: ancestors) children

def AllWellPlaced (ancestors : List Text) : List Component → Prop
  | [] => True
  | c :: rest => WellPlaced ancestors c ∧ AllWellPlaced ancestors rest

end

mutual

instance decidableWellPlaced (ancestors : List Text) : ∀ c, Decidable (WellPlaced ancestors c)
  | leaf _ => isTrue trivial
  | element name children =>
    have := decidableAllWellPlaced (name :: ancestors) children
    inferInstanceAs (Decidable (_ ∧ _ ∧ _ ∧ _))

instance decidableAllWellPlaced (ancestors : List Text) :
    ∀ forest, Decidable (AllWellPlaced ancestors forest)
  | [] => isTrue trivial
  | c :: rest =>
    have := decidableWellPlaced ancestors c
    have := decidableAllWellPlaced ancestors rest
    inferInstanceAs (Decidable (_ ∧ _))

end

def textNodes (run : Text) : List Node :=
  if run = [] then [] else [.text run.escape]

mutual

/-- A component as part of a run of leaves or as a node. -/
def part : Component → Text ⊕ Node
  | leaf s => .inl s
  | element name children => .inr (.element name [] (nodesAll [] children))

/-- The nodes of some components behind leaves whose run goes on. -/
def nodesAll (run : Text) : List Component → List Node
  | [] => textNodes run
  | c :: rest =>
    match c.part with
    | .inl s => nodesAll (run ++ s) rest
    | .inr node => textNodes run ++ node :: nodesAll [] rest

end

theorem nodesAll_leaf (run s : Text) (rest : List Component) :
    nodesAll run (leaf s :: rest) = nodesAll (run ++ s) rest := rfl

theorem nodesAll_element (run name : Text) (children rest : List Component) :
    nodesAll run (element name children :: rest) =
      textNodes run ++ .element name [] (nodesAll [] children) :: nodesAll [] rest := rfl

/-- The content of an element, with a space before and after it in a block. -/
def setOff (name content : Text) : Text :=
  if Tag.category name = .block then ' ' :: (content ++ [' ']) else content

mutual

/-- The leaves of a component, as they are, and the spaces around the content of its blocks. -/
def flat : Component → Text
  | leaf s => s
  | element name children => setOff name (flatAll children)

def flatAll : List Component → Text
  | [] => []
  | c :: rest => c.flat ++ flatAll rest

end

/-! ## The markup -/

theorem html_document (forest : List Component) :
    (document forest).html = Placeholder.resolveAll (buildAll forest) := by
  have hstrip : Indent.strip [[], []] = [[], []] := rfl
  rw [document, compose, hstrip]
  simp [interleave, Placeholder.resolve]

theorem resolve_build_element (name : Text) (children : List Component) :
    (build (element name children)).resolve = Node.startTag name [] ++
      (Placeholder.resolveAll (buildAll children) ++ Node.endTag name) := by
  have hstrip : Indent.strip ['<' :: (name ++ ['>']), '<' :: '/' :: (name ++ ['>'])] =
      ['<' :: (name ++ ['>']), '<' :: '/' :: (name ++ ['>'])] := rfl
  rw [build, Placeholder.resolve, compose, hstrip]
  simp [interleave, Placeholder.resolve, Node.startTag, Node.endTag]

theorem writtenAll_textNodes (run : Text) : Node.writtenAll (textNodes run) = run.escape := by
  unfold textNodes
  split_ifs with h
  · rw [h]
    rfl
  · simp [Node.writtenAll, Node.written]

theorem writtenAll_nodesAll {ancestors : List Text} (run : Text) : ∀ {forest : List Component},
    AllWellPlaced ancestors forest →
      Node.writtenAll (nodesAll run forest) =
        run.escape ++ Placeholder.resolveAll (buildAll forest)
  | [], _ => by
    rw [nodesAll, writtenAll_textNodes, buildAll, Placeholder.resolveAll, List.append_nil]
  | leaf s :: rest, h => by
    rw [nodesAll_leaf, writtenAll_nodesAll (run ++ s) h.2, Text.escape_append, List.append_assoc]
    rfl
  | element name children :: rest, h => by
    obtain ⟨⟨-, hvoid, -, hchildren⟩, hrest⟩ := h
    have hinside := writtenAll_nodesAll [] hchildren
    have hbehind := writtenAll_nodesAll [] hrest
    rw [nodesAll_element, Node.writtenAll_append, writtenAll_textNodes, Node.writtenAll,
      Node.written, if_neg (by simp [hvoid]), hinside, hbehind, buildAll, Placeholder.resolveAll,
      resolve_build_element]
    rfl

/-! ## The nodes -/

theorem allWellFormed_textNodes_append {ancestors : List Text} {nodes : List Node} (run : Text)
    (h : Node.AllWellFormed ancestors nodes) (hnext : ∀ next ∈ nodes.head?, next.isText = false) :
    Node.AllWellFormed ancestors (textNodes run ++ nodes) := by
  unfold textNodes
  split_ifs with hrun
  · exact h
  · exact ⟨⟨Text.escape_ne_nil hrun, Text.notMem_escape (by simp) run⟩, fun _ => hnext, h⟩

theorem allWellFormed_nodesAll (run : Text) : ∀ {ancestors : List Text} {forest : List Component},
    AllWellPlaced ancestors forest → Node.AllWellFormed ancestors (nodesAll run forest)
  | ancestors, [], _ => by
    have h : Node.AllWellFormed ancestors (textNodes run ++ []) :=
      allWellFormed_textNodes_append run trivial (by simp)
    rwa [List.append_nil] at h
  | _, leaf s :: _, h => allWellFormed_nodesAll (run ++ s) h.2
  | _, element name children :: rest, h => by
    obtain ⟨⟨hstart, hvoid, hraw, hchildren⟩, hrest⟩ := h
    have hinside := allWellFormed_nodesAll [] hchildren
    rw [nodesAll_element]
    apply allWellFormed_textNodes_append
    · refine ⟨⟨hstart, ?_⟩, by simp [Node.isText], allWellFormed_nodesAll [] hrest⟩
      rwa [if_neg (by simp [hvoid]), if_neg (by simp [hraw])]
    · rintro next ⟨rfl⟩
      rfl

/-! ## The appearance -/

theorem appearanceAll_textNodes (run : Text) : Node.appearanceAll (textNodes run) = run.escape := by
  unfold textNodes
  split_ifs with h
  · rw [h]
    rfl
  · simp [Node.appearanceAll, Node.appearance]

theorem category_ne_hidden {name : Text} (hname : Tag.IsName name)
    (hraw : Tag.isRawText name = false) : Tag.category name ≠ .hidden := by
  have hsubset : ∀ hidden ∈ Tag.hiddenNames, Tag.isRawText hidden = true := by decide
  intro hhidden
  rw [Tag.category, hname.lowercase] at hhidden
  split_ifs at hhidden with hmem
  rw [hsubset name hmem] at hraw
  cases hraw

theorem appearance_element {name : Text} (hname : Tag.IsName name)
    (hraw : Tag.isRawText name = false) {children : List Node} {content : Text}
    (h : Node.appearanceAll children = content.escape) :
    Node.appearance (.element name [] children) = (setOff name content).escape := by
  have hhidden := category_ne_hidden hname hraw
  rw [Node.appearance, setOff]
  cases hcategory : Tag.category name with
  | hidden => exact absurd hcategory hhidden
  | block =>
    have hspaces : Text.escape (' ' :: (content ++ [' '])) = ' ' :: (content.escape ++ [' ']) := by
      rw [Text.escape_cons, Text.escape_append]
      rfl
    simp [Attribute.lookup?, Node.iconAppearance, Node.spaced, h, hspaces]
  | «inline» => simp [Attribute.lookup?, Node.iconAppearance, Node.spaced, h]

theorem appearanceAll_nodesAll {ancestors : List Text} (run : Text) :
    ∀ {forest : List Component}, AllWellPlaced ancestors forest →
      Node.appearanceAll (nodesAll run forest) = (run ++ flatAll forest).escape
  | [], _ => by rw [nodesAll, appearanceAll_textNodes, flatAll, List.append_nil]
  | leaf s :: rest, h => by
    rw [nodesAll_leaf, appearanceAll_nodesAll (run ++ s) h.2, flatAll, flat, List.append_assoc]
  | element name children :: rest, h => by
    obtain ⟨⟨hstart, -, hraw, hchildren⟩, hrest⟩ := h
    have hinside := appearanceAll_nodesAll [] hchildren
    have hbehind := appearanceAll_nodesAll [] hrest
    rw [nodesAll_element, Node.appearanceAll_append, appearanceAll_textNodes, Node.appearanceAll,
      appearance_element hstart.isName hraw hinside, hbehind, flatAll, flat]
    simp

/-- Components that are composed are there again when the outcome is parsed, runs of adjacent
texts as one text each, and the outcome shows the texts that were put in. -/
theorem parse_document (forest : List Component) (h : AllWellPlaced [] forest) :
    Node.parse (document forest).html = nodesAll [] forest ∧
      (Source.markup (document forest)).visualize = (flatAll forest).normalize := by
  have hformed := allWellFormed_nodesAll [] h
  have hwritten : (document forest).html = Node.writtenAll (nodesAll [] forest) := by
    rw [html_document, writtenAll_nodesAll [] h]
    rfl
  have hparse : Node.parse (document forest).html = nodesAll [] forest := by
    rw [hwritten, Node.parse, Node.readAll_writtenAll_of_end hformed,
      Node.ofTokens_tokensAll hformed]
  refine ⟨hparse, ?_⟩
  rw [Source.visualize, Source.tree, hparse, Node.visualize, appearanceAll_nodesAll [] h,
    Text.decode_escape, List.nil_append]

theorem parse_document_paragraph :
    Node.parse (document [.leaf "a".toList, .leaf "<".toList, .element "p".toList
        [.element "b".toList [.leaf "&amp;".toList], .leaf []], .leaf "\"".toList]).html =
      [.text "a&lt;".toList,
        .element "p".toList [] [.element "b".toList [] [.text "&amp;amp;".toList]],
        .text "&quot;".toList] ∧
    (Source.markup (document [.leaf "a".toList, .leaf "<".toList, .element "p".toList
        [.element "b".toList [.leaf "&amp;".toList], .leaf []], .leaf "\"".toList])).visualize =
      "a< &amp; \"".toList :=
  parse_document
    [.leaf "a".toList, .leaf "<".toList, .element "p".toList
      [.element "b".toList [.leaf "&amp;".toList], .leaf []], .leaf "\"".toList]
    (by decide +kernel)

end Component

end Hypertext
