-- Strings of C in an array of characters: a text is written from the start on, one
-- character after the other, and a NUL ends it.
import Mathlib.Logic.Function.Basic
import Mathlib.Data.List.Basic

namespace c_strings

def Begins (data : Nat → Char) (text : List Char) : Prop := ∀ k, k < text.length → text[k]? = some (data k)

/-- The array holds the text and then a NUL, which is the first one. -/
structure Spells (data : Nat → Char) (text : List Char) : Prop where
  begins : Begins data text
  ended : data text.length = '\x00'
  clean : '\x00' ∉ text

variable {data : Nat → Char} {text : List Char}

theorem begins_nil (data : Nat → Char) : Begins data [] := fun _ hk => absurd hk (Nat.not_lt_zero _)

theorem Begins.snoc (h : Begins data text) (c : Char) :
    Begins (Function.update data text.length c) (text ++ [c]) := by
  intro k hk
  rw [List.length_append, List.length_singleton] at hk
  by_cases hl : k = text.length
  · grind
  · rw [List.getElem?_append_left (by omega), Function.update_of_ne hl, h k (by omega)]

theorem Begins.finish (h : Begins data text) (hc : '\x00' ∉ text) :
    Spells (Function.update data text.length '\x00') text where
  begins := by
    intro k hk
    rw [Function.update_of_ne (Nat.ne_of_lt hk), h k hk]
  ended := Function.update_self ..
  clean := hc

theorem spells_nil (h : data 0 = '\x00') : Spells data [] := ⟨begins_nil data, h, List.not_mem_nil⟩

end c_strings
