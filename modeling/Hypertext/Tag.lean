import Hypertext.Text.Basic

/-!
# Tag names

The fixed tables about element names: how an element shows, which elements are void, which
hold raw text, and which open elements a start tag ends by implication. Only `category`
ignores letter case; the other tables are asked about names in lower case.
-/

namespace Hypertext.Tag

set_option autoImplicit false

inductive Category where
  | inline
  | block
  | hidden
  deriving DecidableEq, Repr

/-- Elements that show their content without spacing. -/
def inlineNames : List Text :=
  ["a", "abbr", "b", "big", "cite", "code", "em", "i", "small", "span", "strong", "tt"]

/-- Elements that do not show at all, with everything below them. -/
def hiddenNames : List Text :=
  ["style", "script", "noscript"]

/-- Every element that is neither hidden nor inline is a block. -/
def category (name : Text) : Category :=
  if name.lowercase ∈ hiddenNames then .hidden
  else if name.lowercase ∈ inlineNames then .inline
  else .block

def voidNames : List Text :=
  ["area", "base", "br", "col", "embed", "hr", "img", "input", "link", "meta", "param",
    "source", "track", "wbr"]

def isVoid (name : Text) : Bool :=
  name ∈ voidNames

/-- Elements whose content is raw text up to their own end tag. -/
def rawTextNames : List Text :=
  ["script", "style", "noscript", "textarea", "title"]

def isRawText (name : Text) : Bool :=
  name ∈ rawTextNames

/-- Going outward from a start tag, open elements of the names in `closes` end, but none
beyond the first element of a name in `stopsAt`. -/
structure ImpliedEnd where
  closes : List Text
  stopsAt : List Text
  deriving DecidableEq, Repr

def paragraphEnd : ImpliedEnd where
  closes := ["p"]
  stopsAt := ["button", "caption", "object", "table", "td", "template", "th"]

def listItemEnd : ImpliedEnd where
  closes := ["li"]
  stopsAt := ["ol", "ul", "menu", "table", "td", "th"]

def definitionEnd : ImpliedEnd where
  closes := ["dd", "dt"]
  stopsAt := ["dl", "table", "td", "th"]

def optionEnd : ImpliedEnd where
  closes := ["option"]
  stopsAt := ["select", "datalist", "optgroup"]

def optionGroupEnd : ImpliedEnd where
  closes := ["option", "optgroup"]
  stopsAt := ["select"]

def rowEnd : ImpliedEnd where
  closes := ["tr", "td", "th"]
  stopsAt := ["table", "thead", "tbody", "tfoot"]

def cellEnd : ImpliedEnd where
  closes := ["td", "th"]
  stopsAt := ["tr", "table"]

def sectionEnd : ImpliedEnd where
  closes := ["thead", "tbody", "tfoot", "tr", "td", "th"]
  stopsAt := ["table"]

/-- Elements whose start tag does nothing but end an open paragraph. -/
def paragraphClosers : List Text :=
  ["address", "article", "aside", "blockquote", "center", "details", "dialog", "dir", "div",
    "dl", "fieldset", "figcaption", "figure", "footer", "form", "h1", "h2", "h3", "h4", "h5",
    "h6", "header", "hgroup", "hr", "main", "menu", "nav", "ol", "p", "pre", "section",
    "summary", "table", "ul"].map String.toList

/-- Start tags by name, with what they end, in the order in which it ends. -/
def impliedEndTable : List (List Text × List ImpliedEnd) :=
  [(["li"], [listItemEnd, paragraphEnd]),
    (["dd", "dt"], [definitionEnd, paragraphEnd]),
    (["option"], [optionEnd]),
    (["optgroup"], [optionGroupEnd]),
    (["tr"], [rowEnd]),
    (["td", "th"], [cellEnd]),
    (["thead", "tbody", "tfoot"], [sectionEnd]),
    (paragraphClosers, [paragraphEnd])]

/-- What the start tag of a name ends; a name outside the table ends nothing. -/
def impliedEnds (name : Text) : List ImpliedEnd :=
  ((impliedEndTable.find? fun row => name ∈ row.1).map Prod.snd).getD []

/-- How many of the open elements end, given their names from the innermost outward: all
down to the outermost one in `closes` before the first one in `stopsAt`. -/
def ImpliedEnd.depth (rule : ImpliedEnd) : List Text → Nat
  | [] => 0
  | name :: outer =>
    if name ∈ rule.closes then rule.depth outer + 1
    else if name ∈ rule.stopsAt then 0
    else match rule.depth outer with
      | 0 => 0
      | n + 1 => n + 2

end Hypertext.Tag
