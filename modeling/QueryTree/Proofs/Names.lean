/-
Names that clash with no name taken. A number at the end of a stem keeps its digits in lower case,
so of the numbered names of a stem at most as many are blocked as names are taken: the search for
a free name always finds one. In a query with a name the slots therefore have names that differ in
more than case.
-/
import QueryTree.Query.Projection
import Mathlib.Tactic

namespace QueryTree

namespace Text

theorem digit_cases {c : Char} (h : c.isDigit = true) :
    c ∈ ['0', '1', '2', '3', '4', '5', '6', '7', '8', '9'] := by
  -- A digit is one of ten code points.
  have hn : 48 ≤ c.toNat ∧ c.toNat ≤ 57 := by
    simp only [Char.isDigit, Bool.and_eq_true, decide_eq_true_eq, ge_iff_le, UInt32.le_iff_toNat_le] at h
    exact h
  rw [← Char.ofNat_toNat c]
  obtain ⟨h1, h2⟩ := hn
  generalize c.toNat = n at h1 h2
  interval_cases n <;> decide

/-- Digits have no case, and no letter before them is written differently on their account. -/
theorem digit_plain {c : Char} (h : c.isDigit = true) :
    isCased c = false ∧ isCaseIgnorable c = false ∧ lowerChar c = c ∧ c ≠ 'İ' ∧ c ≠ 'Σ' := by
  have hall : (['0', '1', '2', '3', '4', '5', '6', '7', '8', '9'].all fun c =>
      !isCased c && !isCaseIgnorable c && lowerChar c == c && c != 'İ' && c != 'Σ') = true := by
    decide +kernel
  simpa [and_assoc] using List.all_eq_true.1 hall c (digit_cases h)

theorem lowerInContext_digit {c : Char} (h : c.isDigit = true) (before after : List Char) :
    lowerInContext before c after = [c] := by
  obtain ⟨-, -, hl, hi, hs⟩ := digit_plain h
  rw [lowerInContext, if_neg hi, if_neg hs, hl]

theorem lowerFrom_digits : ∀ (ds before : List Char), (∀ c ∈ ds, c.isDigit = true) →
    lowerFrom before ds = ds
  | [], before, h => rfl
  | d :: ds, before, h => by
    rw [lowerFrom, lowerInContext_digit (h d (List.mem_cons_self ..)),
      lowerFrom_digits ds _ fun c hc => h c (List.mem_cons_of_mem _ hc)]
    rfl

/-- Digits at the end do not count as a letter that follows. -/
theorem casedNext_append_digits {ds : List Char} (hd : ∀ c ∈ ds, c.isDigit = true) (cs : List Char) :
    casedNext (cs ++ ds) = casedNext cs := by
  induction cs with
  | nil =>
    cases ds with
    | nil => rfl
    | cons d ds =>
      obtain ⟨hc, hi, -⟩ := digit_plain (hd d (List.mem_cons_self ..))
      simp [casedNext, hi, hc]
  | cons c cs ih =>
    by_cases hi : isCaseIgnorable c = true
    · simpa [casedNext, List.dropWhile_cons, hi] using ih
    · simp [casedNext, hi]

theorem lowerFrom_append_digits {ds : List Char} (hd : ∀ c ∈ ds, c.isDigit = true) :
    ∀ (cs before : List Char), lowerFrom before (cs ++ ds) = lowerFrom before cs ++ ds
  | [], before => lowerFrom_digits ds before hd
  | c :: cs, before => by
    rw [List.cons_append, lowerFrom, lowerFrom_append_digits hd cs, lowerFrom, List.append_assoc]
    simp only [lowerInContext, casedNext_append_digits hd]

/-- A number at the end of a name stays as it is in lower case. -/
theorem lowercase_numbered (stem : String) (n : Nat) :
    lowercase (Name.numbered stem n) = lowercase stem ++ toString n := by
  have hd : ∀ c ∈ (toString n).toList, c.isDigit = true := fun c hc =>
    Nat.isDigit_of_mem_toDigits (b := 10) (n := n) (by decide) (by decide) (by simpa using hc)
  unfold lowercase Name.numbered
  rw [String.toList_append, lowerFrom_append_digits hd, String.ofList_append, String.ofList_toList]

end Text

namespace Name

theorem toString_inj {m n : Nat} (h : toString m = toString n) : m = n := by
  have h' : Nat.toDigits 10 m = Nat.toDigits 10 n := by simpa using congrArg String.toList h
  rw [← Nat.ofDigitChars_toDigits (b := 10) (n := m) (by decide) (by decide), h',
    Nat.ofDigitChars_toDigits (by decide) (by decide)]

theorem lowercase_numbered_injective (stem : String) :
    Function.Injective fun n => Text.lowercase (numbered stem n) := by
  intro m n h
  simp only [Text.lowercase_numbered] at h
  exact toString_inj (String.append_right_inj _ |>.1 h)

section Free

variable {κ : Type} {key : String → κ} {same : String → String → Bool}
  {taken : List String} {stem : String}

theorem exists_free_number (hinj : Function.Injective fun n => key (numbered stem n)) (start : Nat) :
    ∃ n ∈ List.range' start (taken.length + 1), key (numbered stem n) ∉ taken.map key := by
  -- If all were taken there would be more names than are taken, as the numbered ones differ.
  by_contra hall
  push Not at hall
  have hsub : (List.range' start (taken.length + 1)).map (fun n => key (numbered stem n)) ⊆ taken.map key := by
    intro k hk
    obtain ⟨n, hn, rfl⟩ := List.mem_map.1 hk
    exact hall n hn
  have hnodup := (List.nodup_range' (s := start) (n := taken.length + 1)).map hinj
  have hle := (hnodup.subperm hsub).length_le
  simp at hle

theorem blocked_iff (hsame : ∀ a b, same a b = true ↔ key a = key b) (name : String) :
    taken.any (same · name) = true ↔ key name ∈ taken.map key := by
  simp [hsame]

/-- The search ends at the first number from `start` on whose name is not blocked. -/
theorem firstNumber_spec (hsame : ∀ a b, same a b = true ↔ key a = key b)
    (hinj : Function.Injective fun n => key (numbered stem n)) (start : Nat) :
    ∃ n, firstNumber (fun name => taken.any (same · name)) taken.length stem start = n ∧ start ≤ n ∧
      key (numbered stem n) ∉ taken.map key ∧ ∀ m, start ≤ m → m < n → key (numbered stem m) ∈ taken.map key := by
  simp only [← blocked_iff hsame]
  unfold firstNumber
  rcases hf : (List.range' start taken.length).find? (fun n => !taken.any (same · (numbered stem n))) with _ | n
  · -- The last candidate is left, and one of all candidates is free.
    obtain ⟨n, hn, hfree⟩ := exists_free_number hinj start
    rw [List.find?_eq_none] at hf
    rw [← blocked_iff hsame] at hfree
    have hlast : n = start + taken.length := by
      rw [List.range'_concat, List.mem_append, List.mem_singleton] at hn
      rcases hn with hn | hn
      · exact absurd (by simpa using hfree) (by simpa using hf n hn)
      · simpa using hn
    refine ⟨n, hlast.symm, by omega, hfree, ?_⟩
    intro m hle hlt
    simpa using hf m (List.mem_range'_1.2 ⟨hle, by omega⟩)
  · rw [List.find?_range'_eq_some] at hf
    obtain ⟨hfree, hn, hbefore⟩ := hf
    refine ⟨n, rfl, (List.mem_range'_1.1 hn).1, by simpa using hfree, ?_⟩
    intro m hle hlt
    simpa using hbefore m hle hlt

theorem firstFree_of_not_mem (hsame : ∀ a b, same a b = true ↔ key a = key b)
    (h : key stem ∉ taken.map key) (start : Nat) : firstFree same taken stem start = (stem, start) := by
  unfold firstFree
  simp only
  rw [if_neg (by rwa [blocked_iff hsame])]

theorem firstFree_of_mem (hsame : ∀ a b, same a b = true ↔ key a = key b)
    (hinj : Function.Injective fun n => key (numbered stem n)) (h : key stem ∈ taken.map key) (start : Nat) :
    ∃ n, firstFree same taken stem start = (numbered stem n, n + 1) ∧ start ≤ n ∧
      key (numbered stem n) ∉ taken.map key ∧ ∀ m, start ≤ m → m < n → key (numbered stem m) ∈ taken.map key := by
  obtain ⟨n, hn, hspec⟩ := firstNumber_spec hsame hinj start
  refine ⟨n, ?_, hspec⟩
  unfold firstFree
  simp only
  rw [if_pos ((blocked_iff hsame stem).2 h), hn]

/-- The name that is found is not blocked, whichever stems look like generated names. -/
theorem firstFree_not_mem (hsame : ∀ a b, same a b = true ↔ key a = key b)
    (hinj : Function.Injective fun n => key (numbered stem n)) (start : Nat) :
    key (firstFree same taken stem start).1 ∉ taken.map key := by
  by_cases h : key stem ∈ taken.map key
  · obtain ⟨n, hn, -, hfree, -⟩ := firstFree_of_mem hsame hinj h start
    rw [hn]
    exact hfree
  · rw [firstFree_of_not_mem hsame h]
    exact h

end Free

theorem clash_iff (a b : String) : clash a b = true ↔ Text.lowercase a = Text.lowercase b := by
  simp [clash]

end Name

/-! ## Names of slots -/

namespace Expr

theorem unnamed_unnamed : ∀ e : Expr, e.unnamed.unnamed = e.unnamed
  | named _ inner => unnamed_unnamed inner
  | column .. | star _ | output .. | constant .. | parameter .. | rowNumber _ | cast .. | binary ..
  | not _ | call .. | exist _ => rfl

@[simp] theorem withName_unnamed (name : String) (e : Expr) : (e.withName name).unnamed = e.unnamed :=
  unnamed_unnamed e

end Expr

/-- Every slot but a wildcard has a name, and the names differ in more than case. -/
structure SlotsNamed (slots : List Expr) : Prop where
  named : ∀ e ∈ slots, e.isStar = false → e.outputName.isSome = true
  distinct : ((slots.filterMap Expr.outputName).map Text.lowercase).Nodup

instance (slots : List Expr) : Decidable (SlotsNamed slots) :=
  decidable_of_iff ((∀ e ∈ slots, e.isStar = false → e.outputName.isSome = true) ∧
    ((slots.filterMap Expr.outputName).map Text.lowercase).Nodup) ⟨fun ⟨hn, hd⟩ => ⟨hn, hd⟩, fun ⟨hn, hd⟩ => ⟨hn, hd⟩⟩

theorem slotsNamed_nil : SlotsNamed [] := ⟨by simp, by simp⟩

theorem SlotsNamed.pairwise {slots : List Expr} (h : SlotsNamed slots) :
    slots.Pairwise fun a b => ∀ m, a.outputName = some m → ∀ n, b.outputName = some n →
      Text.lowercase m ≠ Text.lowercase n := by
  rw [← List.pairwise_filterMap, ← List.pairwise_map]
  exact h.distinct

namespace Query

theorem freeSlotName_not_mem (stem : String) (q : Query) :
    Text.lowercase (q.freeSlotName stem) ∉ q.slotNames.map Text.lowercase :=
  Name.firstFree_not_mem Name.clash_iff (Name.lowercase_numbered_injective stem) 0

theorem freeSlotName_of_not_mem {stem : String} {q : Query}
    (h : Text.lowercase stem ∉ q.slotNames.map Text.lowercase) : q.freeSlotName stem = stem := by
  unfold freeSlotName
  rw [Name.firstFree_of_not_mem Name.clash_iff h]

@[simp] theorem distinctlyNamed_unnamed (e : Expr) (q : Query) :
    (q.distinctlyNamed e).unnamed = e.unnamed := by
  unfold distinctlyNamed
  split
  · rfl
  · split
    · exact Expr.withName_unnamed _ e
    · simp only; split <;> simp

/-- A slot that is no wildcard gets a name that no other slot has. -/
theorem distinctlyNamed_outputName {e : Expr} (he : e.isStar = false) (q : Query) :
    ∃ name, (q.distinctlyNamed e).outputName = some name ∧ (q.distinctlyNamed e).isStar = false ∧
      Text.lowercase name ∉ q.slotNames.map Text.lowercase := by
  unfold distinctlyNamed
  rw [if_neg (by simp [he])]
  split
  · exact ⟨_, rfl, rfl, freeSlotName_not_mem slotStem q⟩
  · rename_i name hname
    simp only
    split
    · rename_i hfree
      exact ⟨name, hname, he, hfree ▸ freeSlotName_not_mem name q⟩
    · exact ⟨_, rfl, rfl, freeSlotName_not_mem name q⟩

theorem slotsNamed_distinctlyNamed {q : Query} (h : SlotsNamed q.projection) (e : Expr) :
    SlotsNamed (q.projection ++ [q.distinctlyNamed e]) := by
  by_cases he : e.isStar = true
  · -- A wildcard has no name, so no name is added.
    have hq : q.distinctlyNamed e = e := by unfold distinctlyNamed; rw [if_pos he]
    have hname : e.outputName = none := by cases e <;> simp_all [Expr.isStar, Expr.outputName]
    rw [hq]
    refine ⟨fun x hx hs => ?_, by simpa [hname] using h.distinct⟩
    rcases List.mem_append.1 hx with hx | hx
    · exact h.named x hx hs
    · rw [List.mem_singleton] at hx; subst hx; rw [he] at hs; cases hs
  · obtain ⟨name, hname, -, hfree⟩ := distinctlyNamed_outputName (by simpa using he) q
    refine ⟨fun x hx hs => ?_, ?_⟩
    · rcases List.mem_append.1 hx with hx | hx
      · exact h.named x hx hs
      · rw [List.mem_singleton] at hx; rw [hx, hname]; rfl
    · rw [List.filterMap_append, List.map_append, List.nodup_append]
      refine ⟨h.distinct, by simp [hname], fun a ha b hb => ?_⟩
      simp only [List.filterMap_cons, hname, List.filterMap_nil, List.map_cons, List.map_nil,
        List.mem_singleton] at hb
      subst hb; rintro rfl; exact hfree ha

/-- A slot whose name is free already is taken over as it is. -/
theorem distinctlyNamed_of_free {e : Expr} {name : String} {q : Query} (hname : e.outputName = some name)
    (h : Text.lowercase name ∉ q.slotNames.map Text.lowercase) : q.distinctlyNamed e = e := by
  unfold distinctlyNamed
  rw [hname]
  simp only [freeSlotName_of_not_mem h, if_true]
  split <;> rfl

end Query
end QueryTree
