/-!
Texts that end at their first NUL character.

* `nul_notMem_upToNul`: what is left holds no NUL.
* `upToNul_append_nul`: a NUL ends a text, whatever follows it.
* `upToNul_eq_self`: a text without a NUL is left as it is.
-/

namespace GrammarNet

namespace Text

/-- A text as far as its first NUL. -/
def upToNul (text : String) : String :=
  String.ofList (text.toList.takeWhile (· ≠ '\x00'))

theorem nul_notMem_upToNul (text : String) : '\x00' ∉ (upToNul text).toList := by
  intro h
  rw [upToNul, String.toList_ofList] at h
  have kept := List.all_eq_true.1 (List.all_takeWhile (l := text.toList)) _ h
  simp at kept

private theorem forall_ne_nul {text : String} (h : '\x00' ∉ text.toList) :
    ∀ c ∈ text.toList, decide (c ≠ '\x00') = true := by
  intro c hc
  exact decide_eq_true (ne_of_mem_of_not_mem hc h)

theorem upToNul_append_nul {text : String} (h : '\x00' ∉ text.toList) (rest : String) :
    upToNul (text ++ "\x00" ++ rest) = text := by
  have split : (text ++ "\x00" ++ rest).toList = text.toList ++ '\x00' :: rest.toList := by
    simp
  rw [upToNul, split, List.takeWhile_append_of_pos (forall_ne_nul h),
    List.takeWhile_cons_of_neg (by simp), List.append_nil, String.ofList_toList]

theorem upToNul_eq_self {text : String} (h : '\x00' ∉ text.toList) : upToNul text = text := by
  have kept : text.toList.takeWhile (· ≠ '\x00') = text.toList := by
    rw [← List.append_nil text.toList, List.takeWhile_append_of_pos (forall_ne_nul h),
      List.takeWhile_nil]
  rw [upToNul, kept, String.ofList_toList]

end Text

end GrammarNet
