import Mathlib.Data.List.Basic

namespace KivaDb.Glob

/-- The loop of `glob_match` on what is left of the pattern and of the text.
`star` is what followed the last `*`, in the pattern and in the text it was
tried at. -/
def globLoop : Nat → List Char → List Char → Option (List Char × List Char) → Bool
  | 0, _, _, _ => false
  | _ + 1, p, [], _ => p.all (· = '*')
  | fuel + 1, p, c :: t, star =>
      match p with
      | pc :: p' =>
          if pc = '?' ∨ pc = c then globLoop fuel p' t star
          else if pc = '*' then globLoop fuel p' (c :: t) (some (p', c :: t))
          else back fuel star
      | [] => back fuel star
where
  /-- The last `*` takes one more character. -/
  back (fuel : Nat) : Option (List Char × List Char) → Bool
    | some (sp, mark) => globLoop fuel sp mark.tail (some (sp, mark.tail))
    | none => false

/-- Glob matching with `*` (any run) and `?` (any single character). -/
def globMatch (pattern text : String) : Bool :=
  let p := pattern.toList
  let t := text.toList
  globLoop ((t.length + 1) * (p.length + 2)) p t none

def isWild (c : Char) : Bool := c = '*' || c = '?'

/-- The literal part of a glob before its first wildcard. -/
def globPrefix (pattern : String) : List Char := pattern.toList.takeWhile fun c => !isWild c

/-- Without a `*` to go back to, a text must begin as the pattern does. -/
theorem takeWhile_prefix_of_globLoop (fuel : Nat) (p t : List Char) (h : globLoop fuel p t none = true) :
    p.takeWhile (fun c => !isWild c) <+: t := by
  induction p generalizing fuel t with
  | nil => exact List.nil_prefix
  | cons c p ih =>
      cases fuel with
      | zero => simp [globLoop] at h
      | succ fuel =>
          rw [List.takeWhile_cons]
          cases hw : isWild c with
          | true => exact List.nil_prefix
          | false =>
              have hne : c ≠ '*' ∧ c ≠ '?' := by simpa [isWild] using hw
              cases t with
              | nil => simp [globLoop, hne.1] at h
              | cons x t =>
                  rw [globLoop] at h
                  simp only [hne.2, false_or, hne.1, if_false, globLoop.back] at h
                  split at h
                  · rename_i hx
                    subst hx
                    exact (List.prefix_cons_inj c).mpr (ih fuel t h)
                  · simp at h

theorem globPrefix_prefix {pattern text : String} (h : globMatch pattern text = true) :
    globPrefix pattern <+: text.toList :=
  takeWhile_prefix_of_globLoop _ _ _ h

/-- A pattern without wildcards matches itself only. -/
theorem eq_of_globLoop (fuel : Nat) (p t : List Char) (hp : ∀ c ∈ p, isWild c = false)
    (h : globLoop fuel p t none = true) : p = t := by
  induction p generalizing fuel t with
  | nil =>
      cases fuel with
      | zero => simp [globLoop] at h
      | succ fuel =>
          cases t with
          | nil => rfl
          | cons x t => simp [globLoop, globLoop.back] at h
  | cons c p ih =>
      have hne : c ≠ '*' ∧ c ≠ '?' := by simpa [isWild] using hp c List.mem_cons_self
      cases fuel with
      | zero => simp [globLoop] at h
      | succ fuel =>
          cases t with
          | nil => simp [globLoop, hne.1] at h
          | cons x t =>
              rw [globLoop] at h
              simp only [hne.2, false_or, hne.1, if_false, globLoop.back] at h
              split at h
              · next hx =>
                  rw [hx, ih fuel t (fun d hd => hp d (List.mem_cons_of_mem _ hd)) h]
              · simp at h

theorem globLoop_rest (t : List Char) {fuel : Nat} (h : t.length < fuel) : globLoop fuel [] t (some ([], t)) = true := by
  induction t generalizing fuel with
  | nil =>
      obtain ⟨n, rfl⟩ : ∃ n, fuel = n + 1 := ⟨fuel - 1, by simp at h; omega⟩
      simp [globLoop]
  | cons c t ih =>
      obtain ⟨n, rfl⟩ : ∃ n, fuel = n + 1 := ⟨fuel - 1, by simp at h; omega⟩
      rw [globLoop, globLoop.back]
      exact ih (Nat.lt_of_succ_lt_succ h)

/-- `*` matches a text without a `*` of its own. -/
theorem globMatch_star {text : String} (h : '*' ∉ text.toList) : globMatch "*" text = true := by
  have hp : "*".toList = ['*'] := by decide
  simp only [globMatch, hp]
  cases ht : text.toList with
  | nil => simp [globLoop]
  | cons c t =>
      have hc : ¬ ('*' = '?' ∨ '*' = c) := by
        rw [ht] at h
        simp only [List.mem_cons, not_or] at h
        simp [h.1]
      obtain ⟨n, hn⟩ : ∃ n, ((c :: t).length + 1) * (['*'].length + 2) = n + 1 := ⟨_, by rfl⟩
      rw [hn, globLoop, if_neg hc, if_pos rfl]
      exact globLoop_rest _ (by simp only [List.length_cons, List.length_nil] at hn ⊢; omega)
end KivaDb.Glob
