import Hypertext.Source
import Hypertext.Proofs.Node.Parse

/-!
# What does not show

What a tree shows in the end depends on a tree under construction only through what its parts
show so far: adding a node adds what it shows where reading stands. So hidden elements and
comments leave no trace, whatever is in them and around them, and texts that one of them stood
between are one text again.
-/

namespace Hypertext

set_option autoImplicit false

/-! ## Trees under construction by what they show -/

/-- An open element with what its content shows so far. -/
structure OpenSketch where
  name : Text
  attributes : List Attribute
  shown : Text
  deriving DecidableEq, Repr

/-- What the finished nodes outside every open element show, and the open elements, the
innermost first. -/
structure Sketch where
  shown : Text
  opened : List OpenSketch
  deriving DecidableEq, Repr

def OpenSketch.appearance (e : OpenSketch) : Text :=
  Node.appearance (.element e.name e.attributes [.text e.shown])

namespace Sketch

def append (s : Sketch) (t : Text) : Sketch :=
  match s.opened with
  | [] => { s with shown := s.shown ++ t }
  | e :: outer => { s with opened := { e with shown := e.shown ++ t } :: outer }

def finish (s : Sketch) : Sketch :=
  match s.opened with
  | [] => s
  | e :: outer => append { s with opened := outer } e.appearance

@[simp] theorem append_nil (s : Sketch) : s.append [] = s := by
  obtain ⟨shown, opened⟩ := s
  cases opened with
  | nil => simp [append]
  | cons e outer => simp [append]

@[simp] theorem append_append (s : Sketch) (t u : Text) :
    (s.append t).append u = s.append (t ++ u) := by
  obtain ⟨shown, opened⟩ := s
  cases opened with
  | nil => simp [append]
  | cons e outer => simp [append]

end Sketch

def OpenElement.sketch (e : OpenElement) : OpenSketch :=
  ⟨e.name, e.attributes, Node.appearanceAll e.children.reverse⟩

theorem OpenElement.appearance_sketch (e : OpenElement) :
    e.sketch.appearance = e.node.appearance := by
  have hcontent : Node.appearanceAll [.text e.sketch.shown] =
      Node.appearanceAll e.children.reverse := by
    simp [Node.appearanceAll, Node.appearance, OpenElement.sketch]
  rw [OpenSketch.appearance, OpenElement.node, Node.appearance, Node.appearance, hcontent]
  rfl

namespace Builder

def sketch (b : Builder) : Sketch :=
  ⟨Node.appearanceAll b.roots.reverse, b.opened.map OpenElement.sketch⟩

theorem sketch_append (b : Builder) (node : Node) :
    (b.append node).sketch = b.sketch.append node.appearance := by
  cases h : b.opened with
  | nil => simp [append, sketch, Sketch.append, h, Node.appearanceAll]
  | cons e outer =>
    simp [append, sketch, Sketch.append, h, OpenElement.sketch, Node.appearanceAll]

theorem sketch_finish (b : Builder) : b.finish.sketch = b.sketch.finish := by
  cases h : b.opened with
  | nil => simp [finish, Sketch.finish, sketch, h]
  | cons e outer =>
    have hfinish : b.finish = append { b with opened := outer } e.node := by
      rw [finish, h]
    rw [hfinish, sketch_append, ← e.appearance_sketch]
    simp [Sketch.finish, sketch, h]

variable {b c : Builder}

theorem names_eq_of_sketch_eq (h : b.sketch = c.sketch) : b.names = c.names := by
  have hnames := congrArg (fun s => s.opened.map OpenSketch.name) h
  simpa [sketch, names, OpenElement.sketch, Function.comp_def] using hnames

theorem sketch_finishMany_congr (h : b.sketch = c.sketch) (n : Nat) :
    (b.finishMany n).sketch = (c.finishMany n).sketch := by
  induction n generalizing b c with
  | zero => exact h
  | succ n ih =>
    apply ih
    rw [sketch_finish, sketch_finish, h]

theorem sketch_finishImplied_congr (h : b.sketch = c.sketch) (rules : List Tag.ImpliedEnd) :
    (b.finishImplied rules).sketch = (c.finishImplied rules).sketch := by
  induction rules generalizing b c with
  | nil => exact h
  | cons rule rules ih =>
    apply ih
    rw [names_eq_of_sketch_eq h]
    exact sketch_finishMany_congr h _

theorem sketch_begin_congr (h : b.sketch = c.sketch) (name : Text) (attributes : List Attribute) :
    (b.begin name attributes).sketch = (c.begin name attributes).sketch := by
  simp only [sketch, Sketch.mk.injEq] at h
  simp [sketch, begin, h]

/-- What is not to be seen of a tree under construction does not come to light later. -/
theorem sketch_step_congr (h : b.sketch = c.sketch) (token : Token) :
    (b.step token).sketch = (c.step token).sketch := by
  cases token with
  | doctype body => exact h
  | comment body => rw [step, step, sketch_append, sketch_append, h]
  | text run => rw [step, step, sketch_append, sketch_append, h]
  | startTag name attributes selfClosing =>
    have himplied := sketch_finishImplied_congr h (Tag.impliedEnds name)
    cases selfClosing with
    | true =>
      simp only [step, if_true]
      rw [sketch_append, sketch_append, himplied]
    | false => exact sketch_begin_congr himplied name attributes
  | endTag name =>
    have hdepth : b.endDepth? name = c.endDepth? name := by
      rw [endDepth?, endDepth?, names_eq_of_sketch_eq h]
    rw [step, step, hdepth]
    split
    · exact sketch_finishMany_congr h _
    · exact h

theorem sketch_run_congr (h : b.sketch = c.sketch) (tokens : List Token) :
    (b.run tokens).sketch = (c.run tokens).sketch := by
  induction tokens generalizing b c with
  | nil => exact h
  | cons token tokens ih => exact ih (sketch_step_congr h token)

theorem appearanceAll_nodes_congr (h : b.sketch = c.sketch) :
    Node.appearanceAll b.nodes = Node.appearanceAll c.nodes := by
  have hlength : b.opened.length = c.opened.length := by
    simpa [names] using congrArg List.length (names_eq_of_sketch_eq h)
  rw [nodes, nodes, hlength]
  exact congrArg Sketch.shown (sketch_finishMany_congr h c.opened.length)

theorem sketch_run_ofRun (b : Builder) (t : Text) :
    (b.run (Token.ofRun t)).sketch = b.sketch.append t := by
  rw [Token.ofRun]
  split_ifs with h
  · rw [h, Sketch.append_nil]
    rfl
  · exact sketch_append b (.text t)

end Builder

/-! ## Nodes that show nothing -/

namespace Node

variable {pre : Text}

/-- Written in text position, a node that shows nothing is not to be seen at all. -/
theorem visualize_written (hpre : EndsInText pre) {node : Node}
    (hnode : ∀ ancestors, WellFormed ancestors node) (htext : node.isText = false)
    (hshown : node.appearance = []) (post : Text) :
    visualize (parse (pre ++ (node.written ++ post))) = visualize (parse (pre ++ post)) := by
  obtain ⟨tokens, run, hrun, hread⟩ := hpre.exists_tokens
  have hmarkup := startsMarkup_written (hnode []) htext post
  have hwith : Token.readAll (pre ++ (node.written ++ post)) =
      tokens ++ (Token.ofRun run ++ (node.tokens ++ (Token.ofRun (Lexeme.readRun post).1 ++
        Token.readAll (Lexeme.readRun post).2))) := by
    rw [hread, Token.readAll_eq_readRun (run ++ _), Lexeme.readRun_append hrun,
      Lexeme.readRun_of_startsMarkup hmarkup, List.append_nil,
      readAll_written (hnode []) post (by simp [htext]), ← Token.readAll_eq_readRun]
  have hwithout : Token.readAll (pre ++ post) =
      tokens ++ (Token.ofRun (run ++ (Lexeme.readRun post).1) ++
        Token.readAll (Lexeme.readRun post).2) := by
    rw [hread, Token.readAll_eq_readRun (run ++ post), Lexeme.readRun_append hrun]
  -- the two runs part at `pre` and show the same again from the next markup of `post` on
  rw [visualize, visualize, parse, parse, ofTokens, ofTokens, hwith, hwithout]
  simp only [Builder.run_append, Builder.run_tokens _ (hnode _)]
  rw [Builder.appearanceAll_nodes_congr (Builder.sketch_run_congr _ _)]
  rw [Builder.sketch_run_ofRun, Builder.sketch_append, Builder.sketch_run_ofRun,
    Builder.sketch_run_ofRun, hshown, Sketch.append_nil, Sketch.append_append]

/-- The content of a raw-text element. -/
def ofRawText (x : Text) : List Node :=
  if x = [] then [] else [.text x]

theorem writtenAll_ofRawText (x : Text) : writtenAll (ofRawText x) = x := by
  unfold ofRawText
  split_ifs with h
  · rw [h]
    rfl
  · simp [writtenAll, written]

theorem isRawContent_ofRawText {name x : Text} (h : closeTagRange? name x = none) :
    IsRawContent name (ofRawText x) := by
  unfold ofRawText
  split_ifs with hx
  · exact .inl rfl
  · exact .inr ⟨x, rfl, hx, h⟩

theorem of_mem_hiddenNames : ∀ name ∈ Tag.hiddenNames,
    Tag.IsName name ∧ Tag.impliedEnds name = [] ∧ Tag.isVoid name = false ∧
      Tag.isRawText name = true ∧ Tag.category name = .hidden := by
  decide +kernel

/-- Hidden elements and comments are not to be seen, whatever they contain. -/
theorem visualize_hidden (pre post : Text) (hpre : EndsInText pre) :
    (∀ name ∈ Tag.hiddenNames, ∀ x : Text, closeTagRange? name x = none →
      (Source.html (pre ++ (startTag name [] ++ (x ++ (endTag name ++ post))))).visualize =
        (Source.html (pre ++ post)).visualize) ∧
    ∀ body : Text, Lexeme.IsCommentBody body →
      (Source.html (pre ++ ("<!--".toList ++ (body ++ ("-->".toList ++ post))))).visualize =
        (Source.html (pre ++ post)).visualize := by
  constructor
  · intro name hname x hx
    obtain ⟨hisName, himplied, hvoid, hraw, hhidden⟩ := of_mem_hiddenNames name hname
    have hnode : ∀ ancestors, WellFormed ancestors (.element name [] (ofRawText x)) := by
      intro ancestors
      refine ⟨⟨hisName, by simp, by simp, by simp [himplied]⟩, ?_⟩
      rw [if_neg (by simp [hvoid]), if_pos hraw]
      exact isRawContent_ofRawText hx
    have hshown : appearance (.element name [] (ofRawText x)) = [] := by
      rw [appearance, hhidden]
    have hwritten := visualize_written hpre hnode rfl hshown post
    rw [written, if_neg (by simp [hvoid]), writtenAll_ofRawText] at hwritten
    simpa [Source.visualize, Source.tree] using hwritten
  · intro body hbody
    have hnode : ∀ ancestors, WellFormed ancestors (.comment body) := fun _ => hbody
    have hwritten := visualize_written hpre hnode rfl rfl post
    simpa [Source.visualize, Source.tree, written] using hwritten

theorem visualize_hidden_reference :
    (Source.html "<p>a &am<script>if (a<b) x('</p>')</script>p; b".toList).visualize =
      (Source.html "<p>a &amp; b".toList).visualize ∧
    (Source.html "<p>a &am<!-- </p> -->p; b".toList).visualize =
      (Source.html "<p>a &amp; b".toList).visualize := by
  have h := visualize_hidden "<p>a &am".toList "p; b".toList (by decide +kernel)
  exact ⟨h.1 "script".toList (by decide) "if (a<b) x('</p>')".toList (by decide +kernel),
    h.2 " </p> ".toList (by decide +kernel)⟩

end Node

end Hypertext
