import Hypertext.Proofs.AttributeList
import Hypertext.Proofs.Lexeme.TagState
import Hypertext.Proofs.Text.Escaped

/-!
# Attribute lists within their tag

Keys are escaped but not checked, so a key may have blanks, `=` or `/` in it or be empty.
Nothing in an attribute list ends the tag early. Whether the list also stays apart from the end
of the tag is decided by the state that reading the list leaves behind.
-/

namespace Hypertext.AttributeList

set_option autoImplicit false

/-- The members that are not left out. -/
def visible (members : List (Text × Json.Value)) : List (Text × Json.Value) :=
  members.filter fun member => isVisible member.2

/-- An attribute list in the start tag of a paragraph, with what follows the tag. -/
def paragraph (members : List (Text × Json.Value)) (rest : Text) : Text :=
  "<p ".toList ++ ((ofMembers members).html ++ '>' :: rest)

/-- The tag is a start tag with content, and what follows it is read as if alone. -/
def IsApart (members : List (Text × Json.Value)) : Prop :=
  ∀ rest, ∃ attributes, Token.readAll (paragraph members rest) =
    .startTag "p" attributes false :: Token.readAll rest

/-- Where reading stands before the `>` behind the list. -/
def endState (members : List (Text × Json.Value)) : TagState :=
  TagState.between.run (' ' :: (ofMembers members).html)

/-- Whether the text of a member ends in `=`, blanks aside. -/
def EndsInSign (member : Text × Json.Value) : Prop :=
  (shown? member.1 member.2).bind Text.lastNonblank? = some '='

/-- Whether a member has no text, and a key that ends in `=`, blanks aside. -/
def AwaitsValue (member : Text × Json.Value) : Prop :=
  shown? member.1 member.2 = none ∧ member.1.lastNonblank? = some '='

/-- Whether the `=` behind the key is the first one behind a name. -/
def HasName (member : Text × Json.Value) : Prop :=
  '=' ∉ member.1 ∧ member.1.lastNonblank? ≠ none ∧ member.1.lastNonblank? ≠ some '/'

/-- No text that ends in `=` is read as a name, and the list does not end in `/`. -/
structure IsConfined (members : List (Text × Json.Value)) : Prop where
  hasName : ∀ member ∈ visible members, EndsInSign member → HasName member
  pairwise : (visible members).Pairwise fun earlier later =>
    AwaitsValue earlier → ¬ EndsInSign later
  getLast?_ne : ∀ member ∈ (visible members).getLast?,
    shown? member.1 member.2 = none → member.1.getLast? ≠ some '/'

theorem isConfined_iff {members : List (Text × Json.Value)} :
    IsConfined members ↔
      (∀ member ∈ visible members, EndsInSign member → HasName member) ∧
        ((visible members).Pairwise fun earlier later =>
          AwaitsValue earlier → ¬ EndsInSign later) ∧
        ∀ member ∈ (visible members).getLast?,
          shown? member.1 member.2 = none → member.1.getLast? ≠ some '/' :=
  ⟨fun h => ⟨h.1, h.2, h.3⟩, fun h => ⟨h.1, h.2.1, h.2.2⟩⟩

instance : DecidablePred EndsInSign :=
  fun _ => inferInstanceAs (Decidable (_ = _))

instance : DecidablePred AwaitsValue :=
  fun _ => inferInstanceAs (Decidable (_ ∧ _))

instance : DecidablePred HasName :=
  fun _ => inferInstanceAs (Decidable (_ ∧ _))

instance (members : List (Text × Json.Value)) : Decidable (IsConfined members) :=
  decidable_of_iff _ isConfined_iff.symm

/-! ## Entries -/

def entry (member : Text × Json.Value) : Attribute :=
  ⟨member.1.escape, (shown? member.1 member.2).map Text.escape⟩

theorem isQuote_of_mem_escape {c : Char} {t : Text} (h : c ∈ t.escape) : isQuote c = false := by
  rw [isQuote, Bool.or_eq_false_iff, beq_eq_false_iff_ne, beq_eq_false_iff_ne]
  constructor
  · rintro rfl
    exact Text.notMem_escape (by simp) t h
  · rintro rfl
    exact Text.notMem_escape (by simp) t h

theorem close_notMem_written (member : Text × Json.Value) : '>' ∉ (entry member).written := by
  have hkey : '>' ∉ member.1.escape := Text.notMem_escape (by simp) _
  cases hshown : shown? member.1 member.2 with
  | none => simp [Attribute.written, entry, hshown, hkey]
  | some text =>
    have htext : '>' ∉ text.escape := Text.notMem_escape (by simp) _
    simp [Attribute.written, entry, hshown, hkey, htext]

/-- The visible members without those at the start that write nothing. -/
def kept (members : List (Text × Json.Value)) : List (Text × Json.Value) :=
  (visible members).dropWhile fun member => (entryText member.1 member.2).isEmpty

theorem kept_suffix (members : List (Text × Json.Value)) : kept members <:+ visible members :=
  List.dropWhile_suffix _

theorem html_ofMembers_eq (members : List (Text × Json.Value)) :
    (ofMembers members).html =
      Text.joinWith [' '] ((kept members).map fun member => entryText member.1 member.2) := by
  rw [ofMembers, kept, List.dropWhile_map]
  rfl

theorem cons_html_eq {members : List (Text × Json.Value)} (h : kept members ≠ []) :
    ' ' :: (ofMembers members).html =
      (kept members).flatMap fun member => (entry member).written := by
  rw [html_ofMembers_eq, cons_joinWith (by simpa using h), List.flatMap_map]
  simp only [entryText_eq]
  rfl

theorem cons_html_of_kept_eq_nil {members : List (Text × Json.Value)} (h : kept members = []) :
    ' ' :: (ofMembers members).html = [' '] := by
  rw [html_ofMembers_eq, h]
  rfl

theorem close_notMem_html (members : List (Text × Json.Value)) :
    '>' ∉ ' ' :: (ofMembers members).html := by
  by_cases h : kept members = []
  · rw [cons_html_of_kept_eq_nil h]
    decide
  · rw [cons_html_eq h, List.mem_flatMap]
    rintro ⟨member, -, hmem⟩
    exact close_notMem_written member hmem

/-! ## States between entries -/

open TagState

section Written
variable {s : TagState} {name value : Text}

theorem isUnquoted_run_blank (hs : s.IsUnquoted) (hname : ∀ c ∈ name, isQuote c = false) :
    (s.run (' ' :: name)).IsUnquoted := by
  rw [run_cons]
  exact isUnquoted_run (isUnquoted_step hs rfl) hname

theorem written_eq (name value : Text) :
    Attribute.written ⟨name, some value⟩ = (' ' :: name) ++ (['=', '"'] ++ (value ++ ['"'])) := by
  simp [Attribute.written]

theorem run_written_of_named (hnamed : s.run (' ' :: name) = named) (hvalue : '"' ∉ value) :
    s.run (Attribute.written ⟨name, some value⟩) = between := by
  rw [written_eq, run_append, run_append, run_concat, hnamed]
  change ((quoted '"').run value).step '"' = between
  rw [run_quoted hvalue, step, if_pos rfl]

/-- Behind no name, the sign and the quote behind it are part of a name or of a bare value. -/
theorem run_sign_quote (hs : s.IsUnquoted) (hnamed : s ≠ named) :
    s.run ['=', '"'] ∈ [named, bare] := by
  cases s with
  | between | slash | signed | bare => simp [step, isQuote, isBlank]
  | named => exact absurd rfl hnamed
  | quoted quote => cases hs

/-- Even if its quotes are not read as such, a value opens none unless it ends in a sign. -/
theorem run_written_of_not_named (hs : s.IsUnquoted) (hname : ∀ c ∈ name, isQuote c = false)
    (hvalue : ∀ c ∈ value, isQuote c = false) (hnamed : s.run (' ' :: name) ≠ named)
    (hsign : value.lastNonblank? ≠ some '=') :
    s.run (Attribute.written ⟨name, some value⟩) ∈ [named, bare] := by
  have hopen := run_sign_quote (isUnquoted_run_blank hs hname) hnamed
  rw [written_eq, run_append, run_append, run_concat]
  generalize (s.run (' ' :: name)).run ['=', '"'] = state at hopen
  have hstart : state.IsUnquoted ∧ state ≠ signed := by
    simp only [List.mem_cons, List.not_mem_nil, or_false] at hopen
    rcases hopen with rfl | rfl
    · exact ⟨trivial, by simp⟩
    · exact ⟨trivial, by simp⟩
  have hend := isUnquoted_run hstart.1 hvalue
  cases hlast : state.run value with
  | between | slash | named | bare => simp [step, isBlank]
  | quoted quote =>
    rw [hlast] at hend
    cases hend
  | signed =>
    rcases of_run_eq_signed hlast with hvalueSign | ⟨-, hsigned⟩
    · exact absurd hvalueSign hsign
    · exact absurd hsigned hstart.2

end Written

theorem run_blank_name {s : TagState} (hs : s.IsUnquoted) (hsigned : s ≠ signed)
    {member : Text × Json.Value} (h : HasName member) :
    s.run (' ' :: member.1.escape) = named := by
  obtain ⟨hsign, hnone, hslash⟩ := h
  rw [run_cons]
  apply run_eq_named
  · cases s with
    | quoted quote => cases hs
    | signed => exact absurd rfl hsigned
    | between | slash | named | bare => trivial
  · intro hmem
    rcases Text.mem_escape hmem with hreference | ⟨hkey, -⟩
    · simp [Text.referenceChars] at hreference
    · exact hsign hkey
  · exact Text.lastNonblank?_escape_ne_none hnone
  · exact mt (Text.of_lastNonblank?_escape (by decide)) hslash

/-- What the entries before a state say of it: no quotes are open, and a value is awaited or a
slash stands last only for the sake of a key. -/
structure Follows (entries : List (Text × Json.Value)) (s : TagState) : Prop where
  isUnquoted : s.IsUnquoted
  exists_awaitsValue : s = signed → ∃ member ∈ entries, AwaitsValue member
  exists_slash : s = slash → ∃ member ∈ entries.getLast?,
    shown? member.1 member.2 = none ∧ member.1.getLast? = some '/'

section Follows
variable {entries : List (Text × Json.Value)} {member : Text × Json.Value} {s : TagState}

theorem follows_of_mem (h : s ∈ [between, named, bare]) : Follows entries s := by
  simp only [List.mem_cons, List.not_mem_nil, or_false] at h
  rcases h with rfl | rfl | rfl
  · exact ⟨trivial, by simp, by simp⟩
  · exact ⟨trivial, by simp, by simp⟩
  · exact ⟨trivial, by simp, by simp⟩

theorem Follows.concat_of_shown?_eq_none (h : Follows entries s)
    (hshown : shown? member.1 member.2 = none) :
    Follows (entries ++ [member]) (s.run (entry member).written) := by
  have hwritten : (entry member).written = ' ' :: member.1.escape := by
    simp [Attribute.written, entry, hshown]
  rw [hwritten]
  constructor
  · exact isUnquoted_run_blank h.isUnquoted fun c => isQuote_of_mem_escape
  · intro hstate
    rcases of_run_eq_signed hstate with hlast | ⟨-, hstart⟩
    · rw [Text.lastNonblank?_blank_cons rfl] at hlast
      exact ⟨member, by simp, hshown, Text.of_lastNonblank?_escape (by decide) hlast⟩
    · obtain ⟨earlier, hmem, hawaits⟩ := h.exists_awaitsValue hstart
      exact ⟨earlier, List.mem_append_left _ hmem, hawaits⟩
  · intro hstate
    have hlast := getLast?_of_run_eq_slash hstate (List.cons_ne_nil _ _)
    rw [List.getLast?_concat]
    refine ⟨member, rfl, hshown, Text.of_getLast?_escape (by decide) ?_⟩
    cases hescape : member.1.escape with
    | nil =>
      rw [hescape] at hlast
      cases hlast
    | cons c key => rwa [hescape, List.getLast?_cons_cons] at hlast

theorem Follows.concat_of_shown?_eq_some (h : Follows entries s) {text : Text}
    (hshown : shown? member.1 member.2 = some text) (hname : EndsInSign member → HasName member)
    (hearlier : ∀ earlier ∈ entries, AwaitsValue earlier → ¬ EndsInSign member) :
    Follows (entries ++ [member]) (s.run (entry member).written) := by
  have hwritten : entry member = ⟨member.1.escape, some text.escape⟩ := by
    simp [entry, hshown]
  have hkey : ∀ c ∈ member.1.escape, isQuote c = false := fun c => isQuote_of_mem_escape
  have htext : ∀ c ∈ text.escape, isQuote c = false := fun c => isQuote_of_mem_escape
  rw [hwritten]
  by_cases hnamed : s.run (' ' :: member.1.escape) = named
  · rw [run_written_of_named hnamed (Text.notMem_escape (by simp) text)]
    exact follows_of_mem (by simp)
  · have hsign : text.escape.lastNonblank? ≠ some '=' := by
      intro hlast
      have hends : EndsInSign member := by
        rw [EndsInSign, hshown]
        exact Text.of_lastNonblank?_escape (by decide) hlast
      apply hnamed
      refine run_blank_name h.isUnquoted ?_ (hname hends)
      intro hsigned
      obtain ⟨earlier, hmem, hawaits⟩ := h.exists_awaitsValue hsigned
      exact hearlier earlier hmem hawaits hends
    have hstate := run_written_of_not_named h.isUnquoted hkey htext hnamed hsign
    exact follows_of_mem (List.mem_cons_of_mem between hstate)

theorem follows_run (hname : ∀ member ∈ entries, EndsInSign member → HasName member)
    (hpairwise : entries.Pairwise fun earlier later => AwaitsValue earlier → ¬ EndsInSign later) :
    Follows entries (between.run (entries.flatMap fun member => (entry member).written)) := by
  induction entries using List.reverseRecOn with
  | nil => exact follows_of_mem (by simp)
  | append_singleton entries member ih =>
    rw [List.forall_mem_append] at hname
    rw [List.pairwise_append] at hpairwise
    obtain ⟨hname, hmember⟩ := hname
    obtain ⟨hpairwise, -, hearlier⟩ := hpairwise
    have hfollows := ih hname hpairwise
    rw [List.flatMap_append, List.flatMap_singleton, run_append]
    cases hshown : shown? member.1 member.2 with
    | none => exact hfollows.concat_of_shown?_eq_none hshown
    | some text =>
      refine hfollows.concat_of_shown?_eq_some hshown (hmember member (by simp)) ?_
      intro earlier hmem
      exact hearlier earlier hmem member (by simp)

end Follows

theorem IsConfined.isPlain_endState {members : List (Text × Json.Value)} (h : IsConfined members) :
    (endState members).IsPlain := by
  rw [endState]
  by_cases hnone : kept members = []
  · rw [cons_html_of_kept_eq_nil hnone]
    trivial
  · obtain ⟨dropped, hdropped⟩ := kept_suffix members
    have hsuffix := kept_suffix members
    obtain ⟨hunquoted, -, hslash⟩ := follows_run
      (fun member hmember => h.hasName member (hsuffix.mem hmember))
      (h.pairwise.sublist hsuffix.sublist)
    rw [cons_html_eq hnone]
    generalize between.run ((kept members).flatMap fun member => (entry member).written) = s
      at hunquoted hslash
    cases s with
    | between | named | signed | bare => trivial
    | quoted quote => exact hunquoted
    | slash =>
      obtain ⟨member, hmember, hshown, hlast⟩ := hslash rfl
      refine h.getLast?_ne member ?_ hshown hlast
      rw [← hdropped, List.getLast?_append_of_ne_nil _ hnone]
      exact hmember

/-! ## The tag -/

/-- How the tag ends and what is read behind it is decided by the state before its `>`. -/
theorem exists_readAll_paragraph (members : List (Text × Json.Value)) (rest : Text) :
    ∃ attributes, Token.readAll (paragraph members rest) =
      .startTag "p" attributes (((endState members).finish ('>' :: rest)).1 = .selfClosing) ::
        Token.readAll ((endState members).finish ('>' :: rest)).2 := by
  have hname : Tag.IsName "p".toList := by decide
  have hread := Token.readAll_openTag hname (by decide)
    (t := ' ' :: ((ofMembers members).html ++ '>' :: rest)) (by rintro c ⟨rfl⟩; rfl)
  have hfinish : (TagPiece.readAll (' ' :: ((ofMembers members).html ++ '>' :: rest))).2 =
      (endState members).finish ('>' :: rest) :=
    finish_append between (close_notMem_html members) ('>' :: rest)
  have hvoid : Tag.isVoid "p".toList = false := by decide
  rw [hfinish, hvoid, Bool.or_false] at hread
  exact ⟨_, hread⟩

theorem isApart_iff (members : List (Text × Json.Value)) :
    IsApart members ↔ (endState members).IsPlain := by
  constructor
  · intro h
    cases hstate : endState members with
    | between | named | signed | bare => trivial
    | slash =>
      obtain ⟨attributes, hread⟩ := h []
      obtain ⟨others, htag⟩ := exists_readAll_paragraph members []
      rw [hread, hstate, finish_slash_close] at htag
      simp at htag
    | quoted quote =>
      obtain ⟨attributes, hread⟩ := h "x".toList
      obtain ⟨others, htag⟩ := exists_readAll_paragraph members "x".toList
      have hquote : isQuote quote = true := isQuote_of_run_eq_quoted (by simp) hstate
      have hnot : quote ∉ '>' :: "x".toList := by
        intro hmem
        have hall : ∀ c ∈ '>' :: "x".toList, isQuote c = false := by simp [isQuote]
        rw [hall quote hmem] at hquote
        cases hquote
      rw [hread, hstate, finish_quoted_of_notMem hnot, Token.readAll_nil,
        Token.readAll_of_isRun (Lexeme.isRun_of_notMem (by simp))] at htag
      simp [Token.ofRun] at htag
  · intro h rest
    obtain ⟨attributes, hread⟩ := exists_readAll_paragraph members rest
    rw [finish_close_of_isPlain h] at hread
    exact ⟨attributes, hread⟩

/-- Nothing in an attribute list ends the tag before the `>` behind the list. The tag is a start
tag with content, and what follows is read as if alone, if and only if reading the list leaves
neither a slash nor open quotes behind; confined lists never do. -/
theorem readAll_paragraph (members : List (Text × Json.Value)) :
    (∀ rest, ∃ attributes selfClosing remaining, remaining <:+ rest ∧
        Token.readAll (paragraph members rest) =
          .startTag "p" attributes selfClosing :: Token.readAll remaining) ∧
      (IsApart members ↔ (endState members).IsPlain) ∧
      (IsConfined members → IsApart members) := by
  refine ⟨?_, isApart_iff members, ?_⟩
  · intro rest
    obtain ⟨attributes, hread⟩ := exists_readAll_paragraph members rest
    exact ⟨attributes, _, _, finish_close_snd_suffix _ rest, hread⟩
  · intro h
    exact (isApart_iff members).mpr h.isPlain_endState

theorem readAll_paragraph_odd_keys :
    IsConfined [([], .string "x y".toList), ("a /b".toList, .string "c= d =".toList),
        ("k=/".toList, .string "v".toList), ("z w".toList, .bool true)] ∧
      IsApart [([], .string "x y".toList), ("a /b".toList, .string "c= d =".toList),
        ("k=/".toList, .string "v".toList), ("z w".toList, .bool true)] := by
  have hconfined : IsConfined [([], .string "x y".toList),
      ("a /b".toList, .string "c= d =".toList), ("k=/".toList, .string "v".toList),
      ("z w".toList, .bool true)] := by
    decide +kernel
  exact ⟨hconfined, (readAll_paragraph _).2.2 hconfined⟩

/-- The quotes of a text that ends in `=` under an empty key open a value, and a lone slash
closes the tag. -/
theorem not_isApart_empty_key_and_slash :
    ¬ IsApart [([], .string "a b=".toList)] ∧ ¬ IsApart [("/".toList, .bool true)] := by
  constructor
  · have hstate : endState [([], .string "a b=".toList)] = quoted '"' := by decide +kernel
    rw [isApart_iff, hstate]
    exact id
  · have hstate : endState [("/".toList, .bool true)] = slash := by decide +kernel
    rw [isApart_iff, hstate]
    exact id

end Hypertext.AttributeList
