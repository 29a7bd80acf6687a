import Hypertext.Node.Appearance
import Hypertext.Proofs.Text.Words

/-!
# Rewriting nodes

A rewrite of some sibling nodes can take place anywhere in a list of nodes and at any depth of
it. What it does there shows at most where it takes place: a rewrite whose two sides show the
same makes no difference to the whole, however often it is made. The rewrites of this module
take out what does not show and put in what shows instead of it.
-/

namespace Hypertext.Node

set_option autoImplicit false

/-- A rewrite of siblings, in a list of nodes or in the content of an element of it. -/
inductive Within (R : List Node → List Node → Prop) : List Node → List Node → Prop where
  | here {nodes other : List Node} (before after : List Node) (h : R nodes other) :
      Within R (before ++ (nodes ++ after)) (before ++ (other ++ after))
  | inside {children other : List Node} (before after : List Node) (name : Text)
      (attributes : List Attribute) (h : Within R children other) :
      Within R (before ++ element name attributes children :: after)
        (before ++ element name attributes other :: after)

/-! ## What a node shows in its surroundings -/

section Appearance
variable {name : Text} {attributes : List Attribute} {children other : List Node}

theorem appearance_of_ne_hidden (h : Tag.category name ≠ .hidden) :
    appearance (element name attributes children) = iconAppearance attributes ++
      spaced (Tag.category name)
        ((Attribute.lookup? contentMarker attributes).getD (appearanceAll children)) := by
  rw [appearance]
  cases hcategory : Tag.category name with
  | hidden => exact absurd hcategory h
  | «inline» => rfl
  | block => rfl

theorem appearance_of_hidden (h : Tag.category name = .hidden) :
    appearance (element name attributes children) = [] := by
  rw [appearance, h]

theorem appearance_text (run : Text) : appearance (text run) = run := by
  rw [appearance]

theorem appearanceAll_singleton (node : Node) : appearanceAll [node] = node.appearance := by
  rw [appearanceAll, appearanceAll, List.append_nil]

theorem showsLike_spaced {s t : Text} (h : Text.ShowsLike s t) (category : Tag.Category) :
    Text.ShowsLike (spaced category s) (spaced category t) := by
  cases category with
  | «inline» => exact h
  | hidden => exact h
  | block => exact (Text.ShowsLike.refl [' ']).append (h.append (.refl [' ']))

/-- The content of an element is all that its children have to do with what it shows. -/
theorem showsLike_element (attributes : List Attribute)
    (h : Text.ShowsLike (spaced (Tag.category name) (appearanceAll children))
      (spaced (Tag.category name) (appearanceAll other))) :
    Text.ShowsLike (appearance (element name attributes children))
      (appearance (element name attributes other)) := by
  by_cases hhidden : Tag.category name = .hidden
  · rw [appearance_of_hidden hhidden, appearance_of_hidden hhidden]
    exact .refl []
  · rw [appearance_of_ne_hidden hhidden, appearance_of_ne_hidden hhidden]
    cases Attribute.lookup? contentMarker attributes with
    | none => exact (Text.ShowsLike.refl _).append h
    | some content => exact .refl _

end Appearance

section Rewriting
variable {R : List Node → List Node → Prop} {nodes other : List Node}

theorem Within.showsLike
    (hR : ∀ nodes other, R nodes other → Text.ShowsLike (appearanceAll nodes) (appearanceAll other))
    (h : Within R nodes other) : Text.ShowsLike (appearanceAll nodes) (appearanceAll other) := by
  induction h with
  | here before after h =>
    simp only [appearanceAll_append]
    exact (Text.ShowsLike.refl _).append ((hR _ _ h).append (.refl _))
  | inside before after name attributes _ ih =>
    simp only [appearanceAll_append, appearanceAll]
    have helement := showsLike_element attributes (showsLike_spaced ih (Tag.category name))
    exact (Text.ShowsLike.refl _).append (helement.append (.refl _))

theorem visualize_eq_of_showsLike (h : Text.ShowsLike (appearanceAll nodes) (appearanceAll other)) :
    visualize nodes = visualize other :=
  congrArg (Text.joinWith [' ']) h.shownWords_eq

/-- A rewrite that changes nothing of what is seen may be made any number of times. -/
theorem visualize_eq_of_within
    (hR : ∀ nodes other, R nodes other → Text.ShowsLike (appearanceAll nodes) (appearanceAll other))
    (h : Relation.ReflTransGen (Within R) nodes other) : visualize nodes = visualize other := by
  induction h with
  | refl => rfl
  | tail _ hstep ih => exact ih.trans (visualize_eq_of_showsLike (hstep.showsLike hR))

end Rewriting

/-! ## What shows instead of an element -/

/-- Rewrites that leave out what does not show: comments, hidden elements, the tags of inline
elements without an icon, and content that is replaced. -/
inductive Simplifies : List Node → List Node → Prop where
  | comment (body : Text) : Simplifies [comment body] []
  | hidden {name : Text} (attributes : List Attribute) (children : List Node)
      (hname : name.lowercase ∈ Tag.hiddenNames) :
      Simplifies [element name attributes children] []
  | unwrap {name : Text} {attributes : List Attribute} (children : List Node)
      (hname : Tag.category name = .inline)
      (hicon : (Attribute.lookup? iconMarker attributes).getD [] = [])
      (hcontent : Attribute.lookup? contentMarker attributes = none) :
      Simplifies [element name attributes children] children
  | replace {name content : Text} {attributes : List Attribute} (children : List Node)
      (hname : Tag.category name = .inline)
      (hicon : (Attribute.lookup? iconMarker attributes).getD [] = [])
      (hcontent : Attribute.lookup? contentMarker attributes = some content) :
      Simplifies [element name attributes children] [text content]
  | fill {name content : Text} {attributes : List Attribute} (children : List Node)
      (hname : Tag.category name = .block)
      (hcontent : Attribute.lookup? contentMarker attributes = some content) :
      Simplifies [element name attributes children]
        [element name (attributes.filter fun a => a.name ≠ contentMarker) [text content]]

section Markers
variable {attributes : List Attribute}

theorem lookup?_filter_of_ne {name marker : Text} (h : name ≠ marker) :
    Attribute.lookup? name (attributes.filter fun a => a.name ≠ marker) =
      Attribute.lookup? name attributes := by
  have hfind : ((attributes.filter fun a => a.name ≠ marker).find? fun a => a.name = name) =
      attributes.find? fun a => a.name = name := by
    rw [List.find?_filter]
    apply List.find?_congr
    intro a _
    by_cases ha : a.name = name
    · simp [ha, h]
    · simp [ha]
  rw [Attribute.lookup?, hfind, Attribute.lookup?]

theorem lookup?_filter_self (marker : Text) :
    Attribute.lookup? marker (attributes.filter fun a => a.name ≠ marker) = none := by
  rw [Attribute.lookup?, Option.map_eq_none_iff, List.find?_eq_none]
  intro a ha
  simpa using (List.mem_filter.mp ha).2

theorem iconAppearance_eq_nil (h : (Attribute.lookup? iconMarker attributes).getD [] = []) :
    iconAppearance attributes = [] := by
  rw [iconAppearance]
  split
  · rfl
  · rfl
  · next icon hne hlookup =>
    rw [hlookup, Option.getD_some] at h
    exact absurd h hne

end Markers

theorem Simplifies.appearanceAll_eq {nodes other : List Node} (h : Simplifies nodes other) :
    appearanceAll nodes = appearanceAll other := by
  cases h with
  | comment body => rfl
  | hidden attributes children hname =>
    have hhidden : Tag.category _ = .hidden := if_pos hname
    rw [appearanceAll_singleton, appearance_of_hidden hhidden]
    rfl
  | unwrap children hname hicon hcontent =>
    rw [appearanceAll_singleton, appearance_of_ne_hidden (by simp [hname]),
      iconAppearance_eq_nil hicon, hcontent, hname]
    rfl
  | replace children hname hicon hcontent =>
    rw [appearanceAll_singleton, appearanceAll_singleton,
      appearance_of_ne_hidden (by simp [hname]), iconAppearance_eq_nil hicon, hcontent, hname]
    rfl
  | fill children hname hcontent =>
    have hmarkers : iconMarker ≠ contentMarker := by decide
    rw [appearanceAll_singleton, appearanceAll_singleton,
      appearance_of_ne_hidden (by simp [hname]), appearance_of_ne_hidden (by simp [hname]),
      iconAppearance, iconAppearance, lookup?_filter_of_ne hmarkers, lookup?_filter_self,
      hcontent, Option.getD_some, Option.getD_none, appearanceAll_singleton, appearance_text]

/-- What does not show can be left out, and what shows instead of it put in its place, any
number of times and at any depth. -/
theorem visualize_eq_of_simplifies {nodes other : List Node}
    (h : Relation.ReflTransGen (Within Simplifies) nodes other) :
    visualize nodes = visualize other := by
  apply visualize_eq_of_within _ h
  intro nodes other hstep
  rw [hstep.appearanceAll_eq]
  exact .refl _

theorem visualize_eq_of_simplifies_reference :
    visualize
        [element "div".toList [] [text "a ".toList, comment "b".toList,
            element "B".toList [⟨iconMarker, none⟩]
              [text "&am".toList, element "Script".toList [] [text "c".toList],
                text "p;".toList]],
          element "p".toList [⟨contentMarker, some "d".toList⟩, ⟨contentMarker, none⟩]
            [text "e".toList]] =
      visualize
        [element "div".toList [] [text "a ".toList, text "&am".toList, text "p;".toList],
          element "p".toList [] [text "d".toList]] := by
  apply visualize_eq_of_simplifies
  apply Relation.ReflTransGen.head (.inside [] _ _ _ (.here [_] [_] (Simplifies.comment _)))
  apply Relation.ReflTransGen.head
    (.inside [] _ _ _ (.inside [_] [] _ _ (.here [_] [_] (Simplifies.hidden _ _ (by decide)))))
  apply Relation.ReflTransGen.head
    (.inside [] _ _ _ (.here [_] [] (Simplifies.unwrap _ (by decide) (by decide) (by decide))))
  exact .single (.here [_] [] (Simplifies.fill _ (by decide) (by decide)))

end Hypertext.Node
