import Hypertext.Proofs.Node.Rewrite

/-!
# Blocks and blanks

A block is set off by spaces, so it shows the same words wherever it stands, and what is around
it shows the same words as without it. Blanks next to such a space make no difference, and one
blank is as good as any others, so markup can be laid out freely.
-/

namespace Hypertext.Node

set_option autoImplicit false

section Block
variable {name : Text}

theorem exists_appearance_eq_of_block (h : Tag.category name = .block)
    (attributes : List Attribute) (children : List Node) :
    ∃ shown : Text, appearance (element name attributes children) = ' ' :: (shown ++ [' ']) := by
  rw [appearance_of_ne_hidden (by simp [h]), h, spaced, iconAppearance]
  split
  · exact ⟨_, rfl⟩
  · exact ⟨_, rfl⟩
  · next icon _ _ =>
    generalize (Attribute.lookup? contentMarker attributes).getD (appearanceAll children) = content
    exact ⟨icon ++ ' ' :: ' ' :: content, by simp⟩

theorem shownWords_append_block (h : Tag.category name = .block) (attributes : List Attribute)
    (children : List Node) (s t : Text) :
    Text.shownWords (s ++ (appearance (element name attributes children) ++ t)) =
      s.shownWords ++ ((appearance (element name attributes children)).shownWords ++
        t.shownWords) := by
  obtain ⟨shown, hshown⟩ := exists_appearance_eq_of_block h attributes children
  have hspace : isBlank ' ' = true := rfl
  have halone : Text.shownWords (' ' :: (shown ++ [' '])) = shown.shownWords := by
    rw [Text.shownWords_cons hspace, Text.shownWords_append_cons hspace, Text.shownWords_nil,
      List.append_nil]
  rw [hshown, halone, List.cons_append, List.append_assoc, Text.shownWords_append_cons hspace,
    List.singleton_append, Text.shownWords_append_cons hspace]

theorem visualize_eq (nodes : List Node) :
    visualize nodes = Text.joinWith [' '] (appearanceAll nodes).shownWords := rfl

/-- A block shows by itself and leaves what is before and behind it as it is, with one space
between any two of the three that show something. -/
theorem visualize_append_block (before after : List Node) (attributes : List Attribute)
    (children : List Node) (h : Tag.category name = .block) :
    visualize (before ++ element name attributes children :: after) =
      Text.joinWith [' ']
        ([visualize before, visualize [element name attributes children], visualize after].filter
          fun t => !t.isEmpty) := by
  have hwords : (appearanceAll (before ++ element name attributes children :: after)).shownWords =
      [(appearanceAll before).shownWords,
        (appearanceAll [element name attributes children]).shownWords,
        (appearanceAll after).shownWords].flatten := by
    rw [appearanceAll_append, appearanceAll, shownWords_append_block h, appearanceAll_singleton]
    simp
  rw [visualize_eq, hwords, Text.joinWith_flatten]
  · rfl
  · intro word hword
    rw [← hwords] at hword
    exact Text.ne_nil_of_mem_words hword

theorem visualize_append_block_reference :
    visualize ([text "a &am".toList] ++ element "div".toList
        [⟨iconMarker, some "b".toList⟩] [text "p; c".toList] :: [text "d".toList]) =
      "a &am b p; c d".toList := by
  rw [visualize_append_block _ _ _ _ (by decide)]
  decide +kernel

end Block

/-! ## Layout -/

/-- Changes of layout: other blanks in a text, and blanks next to the tags of a block, on their
outer or their inner side. -/
inductive Respaces : List Node → List Node → Prop where
  | run (s t : Text) (blanks others : Text) (hblanks : blanks.IsBlank) (hothers : others.IsBlank)
      (hne : blanks ≠ []) (hothersne : others ≠ []) :
      Respaces [text (s ++ (blanks ++ t))] [text (s ++ (others ++ t))]
  | before {name : Text} (blanks : Text) (attributes : List Attribute) (children : List Node)
      (hname : Tag.category name = .block) (hblanks : blanks.IsBlank) :
      Respaces [element name attributes children] [text blanks, element name attributes children]
  | after {name : Text} (blanks : Text) (attributes : List Attribute) (children : List Node)
      (hname : Tag.category name = .block) (hblanks : blanks.IsBlank) :
      Respaces [element name attributes children] [element name attributes children, text blanks]
  | first {name : Text} (blanks : Text) (attributes : List Attribute) (children : List Node)
      (hname : Tag.category name = .block) (hblanks : blanks.IsBlank) :
      Respaces [element name attributes children]
        [element name attributes (text blanks :: children)]
  | last {name : Text} (blanks : Text) (attributes : List Attribute) (children : List Node)
      (hname : Tag.category name = .block) (hblanks : blanks.IsBlank) :
      Respaces [element name attributes children]
        [element name attributes (children ++ [text blanks])]

section Layout
variable {blanks : Text}

theorem showsLike_space_append (h : blanks.IsBlank) : Text.ShowsLike [' '] (' ' :: blanks) := by
  apply Text.ShowsLike.of_isBlank
  · simp [Text.IsBlank, isBlank]
  · exact List.forall_mem_cons.mpr ⟨rfl, h⟩
  · exact List.cons_ne_nil _ _
  · exact List.cons_ne_nil _ _

theorem showsLike_append_space (h : blanks.IsBlank) : Text.ShowsLike [' '] (blanks ++ [' ']) := by
  apply Text.ShowsLike.of_isBlank
  · simp [Text.IsBlank, isBlank]
  · exact List.forall_mem_append.mpr ⟨h, by simp [isBlank]⟩
  · exact List.cons_ne_nil _ _
  · simp

theorem Respaces.showsLike {nodes other : List Node} (h : Respaces nodes other) :
    Text.ShowsLike (appearanceAll nodes) (appearanceAll other) := by
  cases h with
  | run s t blanks others hblanks hothers hne hothersne =>
    rw [appearanceAll_singleton, appearanceAll_singleton, appearance, appearance]
    have hrun := Text.ShowsLike.of_isBlank hblanks hothers hne hothersne
    exact (Text.ShowsLike.refl s).append (hrun.append (.refl t))
  | before blanks attributes children hname hblanks =>
    obtain ⟨shown, hshown⟩ := exists_appearance_eq_of_block hname attributes children
    have hspace := (showsLike_append_space hblanks).append (.refl (shown ++ [' ']))
    simpa [appearanceAll, appearance_text, hshown] using hspace
  | after blanks attributes children hname hblanks =>
    obtain ⟨shown, hshown⟩ := exists_appearance_eq_of_block hname attributes children
    have hspace := (Text.ShowsLike.refl (' ' :: shown)).append (showsLike_space_append hblanks)
    simpa [appearanceAll, appearance_text, hshown] using hspace
  | first blanks attributes children hname hblanks =>
    rw [appearanceAll_singleton, appearanceAll_singleton]
    apply showsLike_element
    have hspace := (showsLike_space_append hblanks).append (.refl (appearanceAll children ++ [' ']))
    simpa [appearanceAll, appearance_text, hname, spaced] using hspace
  | last blanks attributes children hname hblanks =>
    rw [appearanceAll_singleton, appearanceAll_singleton]
    apply showsLike_element
    have hspace := (Text.ShowsLike.refl (' ' :: appearanceAll children)).append
      (showsLike_append_space hblanks)
    simpa [appearanceAll, appearance_text, hname, spaced] using hspace

/-- Layout is not to be seen: any number of changes of it, at any depth, leaves what a list of
nodes shows as it is. -/
theorem visualize_eq_of_respaces {nodes other : List Node}
    (h : Relation.ReflTransGen (Within Respaces) nodes other) :
    visualize nodes = visualize other :=
  visualize_eq_of_within (fun _ _ hstep => hstep.showsLike) h

theorem visualize_eq_of_respaces_list :
    visualize [element "ul".toList [⟨iconMarker, some "-".toList⟩]
        [element "li".toList [] [text "a b".toList], element "b".toList [] [text "c".toList]]] =
      visualize [element "ul".toList [⟨iconMarker, some "-".toList⟩]
        [text "\n  ".toList, element "li".toList [] [text "a\n\tb".toList],
          element "b".toList [] [text "c".toList], text "\n".toList]] := by
  apply visualize_eq_of_respaces
  apply Relation.ReflTransGen.head (.inside [] [] _ _ (.inside [] [_] _ _
    (.here [] [] (Respaces.run ['a'] ['b'] [' '] ['\n', '\t'] (by decide) (by decide) (by decide)
      (by decide)))))
  apply Relation.ReflTransGen.head (.inside [] [] _ _
    (.here [] [_] (Respaces.before "\n  ".toList [] _ (by decide) (by decide))))
  exact .single (.here [] [] (Respaces.last ['\n'] _ _ (by decide) (by decide)))

end Layout

end Hypertext.Node
