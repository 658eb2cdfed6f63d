import SourceOptimizer.Proofs.NewNames

/-! Generated names are fresh. Whatever modules are loaded, every request for a name is answered, and requests in a row
get different names of at least five letters that can be imported. -/
namespace SourceOptimizer.Pass.Rename

variable {loaded : List String} {a : Int}

/-! ## One request -/

/-- How a name is looked for: the name of the next number is the answer if it can be imported, or else the answer is the
one to a request after that number. -/
inductive Generates (loaded : List String) : Int → String × Int → Prop
  | found {a : Int} : Native.isImportName (spell (a + 1).toNat) loaded = true →
      Generates loaded a (spell (a + 1).toNat, a + 1)
  | passed {a : Int} {r : String × Int} : Native.isImportName (spell (a + 1).toNat) loaded = false →
      Generates loaded (a + 1) r → Generates loaded a r

theorem exists_importName (loaded : List String) (a : Int) :
    ∃ k, a < k ∧ k ≤ a + ((-a).toNat + loaded.length : Nat) + 1 ∧ Native.isImportName (spell k.toNat) loaded = true := by
  by_contra hnone
  -- one more positive number than there are modules, all with different names
  have hsubset : (List.range (loaded.length + 1)).map (fun i => spell (a.toNat + i + 1)) ⊆ loaded := by
    intro name hname
    obtain ⟨i, hi, rfl⟩ := List.mem_map.mp hname
    have hi := List.mem_range.mp hi
    by_contra hfree
    exact hnone ⟨(a.toNat + i + 1 : Nat), by omega, by omega, (isImportName_spell (by omega) loaded).mpr hfree⟩
  have hnodup : ((List.range (loaded.length + 1)).map fun i => spell (a.toNat + i + 1)).Nodup :=
    List.nodup_range.map fun i j hij => by
      have := spell_injective hij
      omega
  have hlength := (hnodup.subperm hsubset).length_le
  simp at hlength

theorem generates_nextNumber {fuel : Nat}
    (h : ∃ k, a < k ∧ k ≤ a + fuel + 1 ∧ Native.isImportName (spell k.toNat) loaded = true) :
    Generates loaded a (spell (nextNumber loaded fuel a).toNat, nextNumber loaded fuel a) := by
  obtain ⟨k, hlt, hle, hk⟩ := h
  induction fuel generalizing a with
  | zero =>
    obtain rfl : k = a + 1 := by omega
    exact .found hk
  | succ fuel ih =>
    rw [nextNumber]
    split
    next hnow => exact .found hnow
    next hnow =>
      have hne : k ≠ a + 1 := by
        rintro rfl
        exact hnow hk
      exact .passed (Bool.eq_false_iff.mpr hnow) (ih (by omega) (by omega))

theorem generates_generate (loaded : List String) (a : Int) : Generates loaded a (generate a loaded) :=
  generates_nextNumber (exists_importName loaded a)

theorem Generates.spelled {r : String × Int} (h : Generates loaded a r) :
    a < r.2 ∧ r.1 = spell r.2.toNat ∧ Native.isImportName r.1 loaded = true := by
  induction h with
  | found himport => exact ⟨Int.lt_succ _, rfl, himport⟩
  | passed _ _ ih => exact ⟨by omega, ih.2⟩

/-! ## Requests in a row -/

def generateNames (loaded : List String) : Nat → Int → List String
  | 0, _ => []
  | count + 1, a => (generate a loaded).1 :: generateNames loaded count (generate a loaded).2

theorem spelled_of_mem_generateNames {count : Nat} {name : String} (h : name ∈ generateNames loaded count a) :
    ∃ k, a < k ∧ name = spell k.toNat ∧ Native.isImportName name loaded = true := by
  induction count generalizing a with
  | zero => simp [generateNames] at h
  | succ count ih =>
    obtain ⟨hlt, hfirst⟩ := (generates_generate loaded a).spelled
    rcases List.mem_cons.mp h with rfl | hrest
    · exact ⟨_, hlt, hfirst⟩
    · obtain ⟨k, hk, hname⟩ := ih hrest
      exact ⟨k, by omega, hname⟩

theorem nodup_generateNames (count : Nat) (h : 0 ≤ a) : (generateNames loaded count a).Nodup := by
  induction count generalizing a with
  | zero => exact List.nodup_nil
  | succ count ih =>
    obtain ⟨hlt, hfirst, -⟩ := (generates_generate loaded a).spelled
    refine List.nodup_cons.mpr ⟨fun hmem => ?_, ih (by omega)⟩
    obtain ⟨k, hk, hname, -⟩ := spelled_of_mem_generateNames hmem
    have := spell_injective (hfirst.symm.trans hname)
    omega

theorem numberOf_lt (cs : List Char) : numberOf cs + 2 ≤ 2 ^ (cs.length + 1) := by
  induction cs using List.reverseRecOn with
  | nil => decide
  | append_singleton cs c ih =>
    have hstep : numberOf (cs ++ [c]) ≤ 2 * numberOf cs + 2 := by
      rw [numberOf, List.foldl_append, ← numberOf, List.foldl_cons, List.foldl_nil]
      split <;> omega
    rw [List.length_append, List.length_singleton, Nat.pow_succ]
    omega

theorem five_le_length_spell {n : Nat} (h : 31 ≤ n) : 5 ≤ (spell n).length := by
  by_contra hshort
  have hnumber := numberOf_lt (spell n).toList
  rw [numberOf_spell, String.length_toList] at hnumber
  have hpow : 2 ^ ((spell n).length + 1) ≤ 2 ^ 5 := Nat.pow_le_pow_right (by decide) (by omega)
  omega

theorem generated_names_fresh (loaded : List String) (count : Nat) :
    (∀ a, Generates loaded a (generate a loaded)) ∧ (generateNames loaded count firstNumber).Nodup ∧
      ∀ name ∈ generateNames loaded count firstNumber, (∀ c ∈ name.toList, c = 'I' ∨ c = 'l') ∧ 5 ≤ name.length ∧
        Text.isIdentifier (Text.ofString name) = true ∧ Token.isKeyword name = false ∧ name ∉ loaded := by
  refine ⟨generates_generate loaded, nodup_generateNames count (by decide), fun name hname => ?_⟩
  obtain ⟨k, hk, rfl, himport⟩ := spelled_of_mem_generateNames hname
  have hfirst : 32 < k := hk
  refine ⟨fun c hc => ?_, five_le_length_spell (by omega), isIdentifier_spell (by omega),
    isKeyword_of_lettered (lettered_spell _), (isImportName_spell (by omega) loaded).mp himport⟩
  simpa [letters] using lettered_spell _ c hc

end SourceOptimizer.Pass.Rename
