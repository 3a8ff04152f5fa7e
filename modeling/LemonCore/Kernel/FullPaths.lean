import LemonCore.Kernel.Paths

/-!
# The normal form of a path (`get_full_path`)

`get_full_path` splits the path at the slashes, takes the dots out with a stack, and joins what is left.

* `resolve`, `normalize`: the two halves of the function;
* `Normal`: what it should give back;
* `normalize_append`: of a path in two pieces, the second is normalised from where the first has led;
* `full_path_normal`: the result is normal, a normal path stays as it is under every `cwd`, and resolving
  `a/b` is resolving `b` after `a`.
-/

namespace LemonCore.Kernel.Paths

open Foundation.LexicalPaths

variable {s cwd path a b : String} {parts : List String}

/-- The path that `get_full_path` splits. -/
def resolve (cwd path : String) : String := if isAbsolute path then path else cwd ++ "/" ++ path

/-- The components that the loop of `get_full_path` leaves. -/
def normalize (s : String) : List String := (split s).foldl (push Skipped "..") []

theorem getFullPath_eq (cwd path : String) :
    getFullPath cwd path = "/" ++ "/".intercalate (normalize (resolve cwd path)) := rfl

/-- No component is empty or a dot. -/
def PlainParts (parts : List String) : Prop := ∀ part ∈ parts, part ≠ "" ∧ part ≠ "." ∧ part ≠ ".."

/-- A path in normal form. -/
structure Normal (path : String) : Prop where
  absolute : isAbsolute path = true
  components : path = "/" ∨ ∃ parts, parts ≠ [] ∧ split path = "" :: parts ∧ PlainParts parts
  trailing : path = "/" ∨ path.toList.getLast? ≠ some '/'

theorem normalize_append (a b : String) :
    normalize (a ++ "/" ++ b) = (split b).foldl (push Skipped "..") (normalize a) := by
  rw [normalize, split_append, List.foldl_append]
  rfl

theorem plain_normalize (s : String) : ∀ part ∈ normalize s, Plain Skipped ".." part :=
  plain_foldl_push _ _ fun _ hno => absurd hno List.not_mem_nil

theorem plainParts_normalize (s : String) : PlainParts (normalize s) := by
  intro part hpart
  obtain ⟨hskip, hup⟩ := plain_normalize s part hpart
  exact ⟨fun hempty => hskip (Or.inl hempty), fun hdot => hskip (Or.inr hdot), hup⟩

theorem foldl_push_plain (hplain : ∀ part ∈ parts, Plain Skipped ".." part) :
    ∀ stack : List String, parts.foldl (push Skipped "..") stack = stack ++ parts := by
  induction parts with
  | nil => exact fun stack => (List.append_nil stack).symm
  | cons part parts ih =>
    intro stack
    obtain ⟨⟨hskip, hup⟩, hrest⟩ := List.forall_mem_cons.mp hplain
    rw [List.foldl_cons, push, if_neg hskip, if_neg hup, ih hrest, List.append_assoc]
    rfl

theorem split_joined (s : String) : split ("/" ++ "/".intercalate (normalize s)) =
    "" :: if normalize s = [] then [""] else normalize s :=
  split_join fun _ hpart => not_mem_normalized hpart

theorem normalize_join (s : String) : normalize ("/" ++ "/".intercalate (normalize s)) = normalize s := by
  rw [normalize, split_joined, List.foldl_cons]
  show (if normalize s = [] then [""] else normalize s).foldl (push Skipped "..") [] = normalize s
  split
  · rename_i hnil
    rw [hnil]
    rfl
  · exact foldl_push_plain (plain_normalize s) []

theorem isAbsolute_slash (s : String) : isAbsolute ("/" ++ s) = true := by
  rw [isAbsolute, String.toList_append]
  rfl

theorem isAbsolute_append (ha : a ≠ "") (b : String) : isAbsolute (a ++ "/" ++ b) = isAbsolute a := by
  have hne : a.toList ≠ [] := fun hnil => ha (String.toList_inj.mp hnil)
  obtain ⟨c, cs, hcons⟩ := List.exists_cons_of_ne_nil hne
  rw [isAbsolute, isAbsolute, String.toList_append, String.toList_append, hcons]
  rfl

theorem normalize_resolve (ha : a ≠ "") (b : String) :
    normalize (resolve cwd (a ++ "/" ++ b)) =
      (split b).foldl (push Skipped "..") (normalize (resolve cwd a)) := by
  rw [resolve, resolve, isAbsolute_append ha]
  split
  · exact normalize_append a b
  · rw [← normalize_append]
    simp only [String.append_assoc]

theorem getLast_ne_slash (hne : parts ≠ []) (hsplit : split path = "" :: parts) (hplain : PlainParts parts) :
    path.toList.getLast? ≠ some '/' := by
  intro hlast
  obtain ⟨front, hfront⟩ := List.getLast?_eq_some_iff.mp hlast
  have htext : path = String.ofList front ++ "/" ++ "" := by
    apply String.toList_inj.mp
    rw [hfront]
    simp
  have hempty : "" ∈ parts := by
    have hmem : (split path).getLast? = some "" := by
      rw [htext, split_append]
      simp [split]
    rw [hsplit, List.getLast?_cons_of_ne_nil hne] at hmem
    exact List.mem_of_getLast? hmem
  exact (hplain "" hempty).1 rfl

theorem normal_getFullPath (cwd path : String) : Normal (getFullPath cwd path) := by
  rw [getFullPath_eq]
  generalize resolve cwd path = s
  by_cases hnil : normalize s = []
  · rw [hnil]
    exact ⟨by decide, Or.inl rfl, Or.inl rfl⟩
  · have hsplit := split_joined s
    rw [if_neg hnil] at hsplit
    have hplain := plainParts_normalize s
    exact ⟨isAbsolute_slash _, Or.inr ⟨_, hnil, hsplit, hplain⟩, Or.inr (getLast_ne_slash hnil hsplit hplain)⟩

/-- **The laws of `get_full_path`.** -/
theorem full_path_normal (cwd path : String) :
    Normal (getFullPath cwd path) ∧
      (∀ cwd', getFullPath cwd' (getFullPath cwd path) = getFullPath cwd path) ∧
      ∀ a b, a ≠ "" → isAbsolute b = false →
        getFullPath cwd (a ++ "/" ++ b) = getFullPath (getFullPath cwd a) b := by
  refine ⟨normal_getFullPath cwd path, ?_, ?_⟩
  · intro cwd'
    rw [getFullPath_eq cwd', resolve, if_pos (normal_getFullPath cwd path).absolute, getFullPath_eq,
      normalize_join]
  · intro a b ha hb
    have hfirst : normalize (getFullPath cwd a) = normalize (resolve cwd a) := normalize_join _
    have hsecond : resolve (getFullPath cwd a) b = getFullPath cwd a ++ "/" ++ b :=
      if_neg (by rw [hb]; exact Bool.false_ne_true)
    rw [getFullPath_eq, getFullPath_eq (getFullPath cwd a), hsecond, normalize_append, hfirst,
      normalize_resolve ha]

end LemonCore.Kernel.Paths
