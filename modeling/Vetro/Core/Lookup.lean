import Mathlib.Tactic
import Std.Data.TreeMap

/-!
# Looking a key up in a changed tree map

What each change of a map does to the lookup of every key, when keys that compare
equal are equal.
-/

namespace Vetro

open Std.TreeMap

variable {K V : Type*} [Ord K] [Std.TransOrd K] [Std.LawfulEqOrd K] [DecidableEq K]

variable (map : Std.TreeMap K V compare)

theorem getElem?_insert_key (key key' : K) (entry : V) :
    (map.insert key entry)[key']? = if key = key' then some entry else map[key']? := by
  rw [getElem?_insert]
  simp only [Std.LawfulEqCmp.compare_eq_iff_eq]

theorem getElem?_erase_key (key key' : K) :
    (map.erase key)[key']? = if key = key' then none else map[key']? := by
  rw [getElem?_erase]
  simp only [Std.LawfulEqCmp.compare_eq_iff_eq]

theorem getElem?_modify_key (key key' : K) (f : V → V) :
    (map.modify key f)[key']? = if key = key' then (map[key']?).map f else map[key']? := by
  rw [getElem?_modify]
  simp only [Std.LawfulEqCmp.compare_eq_iff_eq]
  split_ifs with hkey
  · rw [hkey]
  · rfl

end Vetro
