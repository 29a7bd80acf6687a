import Hypertext.Placeholder
import Hypertext.Proofs.Text.Reference

/-!
# Placeholders without markup

What holds no markup is its plain text, escaped once, however its sequences are nested. So
nothing in it can start a tag or end a quoted value. In general a placeholder is what its
leaves are, one after the other, and those that are markup go in as they are.
-/

namespace Hypertext

set_option autoImplicit false

namespace Placeholder

theorem isMarkupFree_of_mem {items : List Placeholder} (h : (sequence items).IsMarkupFree)
    {item : Placeholder} (hitem : item ∈ items) : item.IsMarkupFree := by
  intro m hm
  apply h m
  rw [leaves]
  induction items with
  | nil => simp at hitem
  | cons first rest ih =>
    rw [leavesAll]
    rcases List.mem_cons.mp hitem with rfl | hrest
    · exact List.mem_append_left _ hm
    · apply List.mem_append_right
      exact ih (fun m hmem => h m (List.mem_append_right _ hmem)) hrest

mutual

theorem resolve_eq_escape_plain : ∀ p : Placeholder, p.IsMarkupFree → p.resolve = p.plain.escape
  | absent, _ => rfl
  | markup m, h => absurd List.mem_cons_self (h m)
  | sequence items, h =>
    resolveAll_eq_escape_plainAll items fun _ hitem => isMarkupFree_of_mem h hitem
  | json _, _ => rfl
  | text _, _ => rfl

theorem resolveAll_eq_escape_plainAll : ∀ items : List Placeholder,
    (∀ item ∈ items, item.IsMarkupFree) → resolveAll items = (plainAll items).escape
  | [], _ => rfl
  | item :: rest, h => by
    rw [List.forall_mem_cons] at h
    obtain ⟨hitem, hrest⟩ := h
    rw [resolveAll, plainAll, Text.escape_append, resolve_eq_escape_plain item hitem,
      resolveAll_eq_escape_plainAll rest hrest]

end

theorem notMem_resolve {p : Placeholder} (h : p.IsMarkupFree) : '<' ∉ p.resolve := by
  rw [resolve_eq_escape_plain p h]
  exact Text.notMem_escape (by simp) _

/-! ## Leaves -/

mutual

theorem resolve_eq_flatMap_leaves : ∀ p : Placeholder, p.resolve = p.leaves.flatMap resolve
  | sequence items => resolveAll_eq_flatMap_leavesAll items
  | absent => rfl
  | markup _ | json _ | text _ => by simp [leaves]

theorem resolveAll_eq_flatMap_leavesAll : ∀ items : List Placeholder,
    resolveAll items = (leavesAll items).flatMap resolve
  | [] => rfl
  | item :: rest => by
    rw [resolveAll, leavesAll, List.flatMap_append, resolve_eq_flatMap_leaves item,
      resolveAll_eq_flatMap_leavesAll rest]

end

mutual

theorem sequence_notMem_leaves (items : List Placeholder) :
    ∀ p : Placeholder, sequence items ∉ p.leaves
  | sequence inner => sequence_notMem_leavesAll items inner
  | absent | markup _ | json _ | text _ => by simp [leaves]

theorem sequence_notMem_leavesAll (items : List Placeholder) :
    ∀ inner : List Placeholder, sequence items ∉ leavesAll inner
  | [] => List.not_mem_nil
  | item :: rest => by
    rw [leavesAll, List.mem_append, not_or]
    exact ⟨sequence_notMem_leaves items item, sequence_notMem_leavesAll items rest⟩

end

end Placeholder

/-! ## Values by their shape -/

namespace Json.Value

mutual

/-- The text of a value that goes in by its shape: nothing for null, the texts of its items for
an array, compact data for an object and the plain text of a scalar. -/
def shapeText : Value → Text
  | null => []
  | array items => shapeTextAll items
  | object members => (object members).compact
  | scalar => scalar.plainText

def shapeTextAll : List Value → Text
  | [] => []
  | item :: rest => item.shapeText ++ shapeTextAll rest

end

end Json.Value

namespace Placeholder

mutual

theorem markup_notMem_leaves_ofValue (m : Markup) :
    ∀ v : Json.Value, markup m ∉ (ofValue v).leaves
  | .array items => markup_notMem_leavesAll_ofValues m items
  | .null | .object _ | .bool _ | .integer _ | .float _ | .string _ => by simp [ofValue, leaves]

theorem markup_notMem_leavesAll_ofValues (m : Markup) :
    ∀ items : List Json.Value, markup m ∉ leavesAll (ofValues items)
  | [] => List.not_mem_nil
  | item :: rest => by
    rw [ofValues, leavesAll, List.mem_append, not_or]
    exact ⟨markup_notMem_leaves_ofValue m item, markup_notMem_leavesAll_ofValues m rest⟩

end

mutual

theorem plain_ofValue : ∀ v : Json.Value, (ofValue v).plain = v.shapeText
  | .array items => plainAll_ofValues items
  | .null | .object _ | .bool _ | .integer _ | .float _ | .string _ => rfl

theorem plainAll_ofValues : ∀ items : List Json.Value,
    plainAll (ofValues items) = Json.Value.shapeTextAll items
  | [] => rfl
  | item :: rest => by
    rw [ofValues, plainAll, Json.Value.shapeTextAll, plain_ofValue item, plainAll_ofValues rest]

end

/-- Plain text is escaped exactly once on its way into markup, markup is not escaped at all, and
values go in as the text that their shape has. -/
theorem resolve_escapes_once :
    (∀ p : Placeholder, p.IsMarkupFree →
      p.resolve = p.plain.escape ∧ p.resolve.decode = p.plain) ∧
    (∀ p : Placeholder, p.resolve = p.leaves.flatMap resolve ∧
      (∀ items, sequence items ∉ p.leaves) ∧ ∀ m, (markup m).resolve = m.html) ∧
    ∀ v : Json.Value, (ofValue v).resolve = v.shapeText.escape := by
  refine ⟨?_, ?_, ?_⟩
  · intro p hfree
    have hresolve := resolve_eq_escape_plain p hfree
    refine ⟨hresolve, ?_⟩
    rw [hresolve, Text.decode_escape]
  · intro p
    exact ⟨resolve_eq_flatMap_leaves p, fun items => sequence_notMem_leaves items p, fun _ => rfl⟩
  · intro v
    rw [resolve_eq_escape_plain _ fun m => markup_notMem_leaves_ofValue m v, plain_ofValue]

theorem resolve_escapes_once_nested :
    (sequence [text ['<'], sequence [absent, json (.array [.string ['&']])]]).IsMarkupFree ∧
      (sequence [text ['<'], sequence [absent, json (.array [.string ['&']])]]).resolve =
        "&lt;[&quot;&amp;&quot;]".toList := by
  have hfree : (sequence [text ['<'],
      sequence [absent, json (.array [.string ['&']])]]).IsMarkupFree := by
    simp [IsMarkupFree, leaves, leavesAll]
  refine ⟨hfree, ?_⟩
  rw [(resolve_escapes_once.1 _ hfree).1]
  decide +kernel

end Placeholder

end Hypertext
