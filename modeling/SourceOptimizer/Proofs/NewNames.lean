import Mathlib
import SourceOptimizer.Pass.Rename

/-! New names. The names that are generated one after the other are all different and consist of two letters only; a
naming that has noted stored names has given each of them a name of its own and has left the others alone. -/
namespace SourceOptimizer.Pass.Rename

variable {a : Int} {id : String}

/-! ## Spelling -/

def numberOf (cs : List Char) : Nat := cs.foldl (fun n c => 2 * n + if c = 'I' then 1 else 2) 0

theorem spellWithin_append (fuel n : Nat) (acc : List Char) :
    spellWithin fuel n acc = spellWithin fuel n [] ++ acc := by
  induction fuel generalizing n acc with
  | zero => rfl
  | succ fuel ih =>
    unfold spellWithin
    split
    · rfl
    · rw [ih _ (_ :: acc), ih _ [_], List.append_assoc, List.singleton_append]

theorem numberOf_spellWithin {fuel n : Nat} (h : n ≤ fuel) : numberOf (spellWithin fuel n []) = n := by
  induction fuel generalizing n with
  | zero =>
    obtain rfl := Nat.le_zero.mp h
    rfl
  | succ fuel ih =>
    unfold spellWithin
    split
    · simp_all [numberOf]
    · rename_i hn
      have hpos : n ≠ 0 := by simpa using hn
      have hrest : numberOf (spellWithin fuel ((n - 1) / 2) []) = (n - 1) / 2 := ih (by omega)
      rw [spellWithin_append, numberOf, List.foldl_append, ← numberOf, hrest]
      by_cases hodd : (n - 1) % 2 = 0
      · simp [hodd]
        omega
      · simp [hodd]
        omega

theorem spell_injective {m n : Nat} (h : spell m = spell n) : m = n := by
  have hchars : spellWithin m m [] = spellWithin n n [] := by
    simpa [spell] using congrArg String.toList h
  rw [← numberOf_spellWithin (Nat.le_refl m), ← numberOf_spellWithin (Nat.le_refl n), hchars]

theorem spellWithin_letters (fuel n : Nat) (acc : List Char) (hacc : ∀ c ∈ acc, c ∈ letters) :
    ∀ c ∈ spellWithin fuel n acc, c ∈ letters := by
  induction fuel generalizing n acc with
  | zero => exact hacc
  | succ fuel ih =>
    unfold spellWithin
    split
    · exact hacc
    · refine ih _ _ fun c hc => ?_
      rcases List.mem_cons.mp hc with rfl | hc
      · split <;> simp [letters]
      · exact hacc c hc

def Lettered (id : String) : Prop := ∀ c ∈ id.toList, c ∈ letters

instance (id : String) : Decidable (Lettered id) := List.decidableBAll (· ∈ letters) id.toList

theorem lettered_spell (n : Nat) : Lettered (spell n) := by
  simpa [Lettered, spell] using spellWithin_letters n n [] (by simp)

theorem numberOf_spell (n : Nat) : numberOf (spell n).toList = n := by
  simpa [spell] using numberOf_spellWithin (Nat.le_refl n)

theorem isIdentifier_spell {n : Nat} (h : 0 < n) : Text.isIdentifier (Text.ofString (spell n)) = true := by
  have hname : ∀ c ∈ letters, Text.isNameStart c.toNat = true ∧ Text.isNameRest c.toNat = true := by
    simp only [letters, List.forall_mem_cons]
    exact ⟨⟨by decide, by decide⟩, ⟨by decide, by decide⟩, nofun⟩
  have hchars := lettered_spell n
  unfold Lettered at hchars
  unfold Text.ofString
  cases hspell : (spell n).toList with
  | nil =>
    have hzero := numberOf_spell n
    rw [hspell] at hzero
    exact absurd hzero h.ne
  | cons c cs =>
    rw [hspell, List.forall_mem_cons] at hchars
    simp only [List.map_cons, Text.isIdentifier, (hname c hchars.1).1, List.all_map, Bool.true_and, List.all_eq_true]
    exact fun c hc => (hname c (hchars.2 c hc)).2

theorem isKeyword_of_lettered (h : Lettered id) : Token.isKeyword id = false := by
  have hall : ∀ word ∈ Token.keywords, ¬ Lettered word := by decide
  exact Bool.eq_false_iff.mpr fun hkeyword => hall id (List.contains_iff_mem.mp hkeyword) h

theorem isImportName_spell {n : Nat} (h : 0 < n) (loaded : List String) :
    Native.isImportName (spell n) loaded = true ↔ spell n ∉ loaded := by
  simp [Native.isImportName, isIdentifier_spell h, isKeyword_of_lettered (lettered_spell n)]

theorem generate_eq (h : 0 < a) : generate a = (spell (a + 1).toNat, a + 1) := by
  have hall : ∀ name ∈ Native.loadedModules, ¬ Lettered name := by decide
  have himport : Native.isImportName (spell (a + 1).toNat) = true :=
    (isImportName_spell (by omega) _).mpr fun hmem => hall _ hmem (lettered_spell _)
  have hfuel : (-a).toNat + Native.loadedModules.length = 9 + 1 := by
    simp [Native.loadedModules]
    omega
  rw [generate, hfuel, nextNumber, if_pos himport]

/-- A name that is not generated after number `a`. -/
def Old (a : Int) (id : String) : Prop := ∀ k, a < k → id ≠ spell k.toNat

theorem Old.mono {b : Int} (h : Old a id) (hle : a ≤ b) : Old b id :=
  fun k hk => h k (Int.lt_of_le_of_lt hle hk)

theorem old_of_not_lettered (h : ¬ Lettered id) (a : Int) : Old a id := by
  rintro k _ rfl
  exact h (lettered_spell _)

theorem old_spell {k : Int} (h : 0 < k) (hle : k ≤ a) : Old a (spell k.toNat) := by
  intro j hj heq
  have := spell_injective heq
  omega

theorem not_old_spell {k : Int} (h : a < k) : ¬ Old a (spell k.toNat) := fun hold => hold k h rfl

/-! ## What a naming knows -/

namespace Naming

theorem newName_map (n : Naming) (old new id : String) :
    (n.map old new).newName? id = if id = old then some new else n.newName? id := by
  unfold map newName?
  split
  next hany =>
    -- an entry that is replaced keeps its old name, so the same entry is found
    have hfind : (n.mapping.map fun e => if e.1 == old then (old, new) else e).find? (·.1 == id) =
        (n.mapping.find? (·.1 == id)).map fun e => if e.1 == old then (old, new) else e := by
      rw [List.find?_map]
      congr 2
      funext e
      by_cases he : e.1 = old <;> simp [he]
    rw [hfind]
    by_cases hid : id = old
    · subst hid
      obtain ⟨e, he⟩ := Option.isSome_iff_exists.mp (List.find?_isSome.trans List.any_eq_true.symm |>.mpr hany)
      have hname : e.1 = id := by simpa using List.find?_some he
      simp [he, hname]
    · cases he : n.mapping.find? (·.1 == id) with
      | none => simp [hid]
      | some e =>
        have hname : e.1 = id := by simpa using List.find?_some he
        simp [hid, hname]
  next hany =>
    simp only [List.any_eq_true, beq_iff_eq, not_exists, not_and] at hany
    by_cases hid : id = old
    · subst hid
      have hnone : n.mapping.find? (·.1 == id) = none := by simpa using hany
      simp [hnone]
    · have hne : ¬ old = id := fun h => hid h.symm
      simp [hid, hne]

def replace (n : Naming) (id : String) : String := (n.newName? id).getD id

theorem map_eq (n : Naming) (old new : String) : (n.map old new).phase = n.phase ∧ (n.map old new).bypassed = n.bypassed ∧
    (n.map old new).ignoring = n.ignoring ∧ (n.map old new).assigned = n.assigned := by
  unfold map
  split <;> exact ⟨rfl, rfl, rfl, rfl⟩

theorem bypassed_noteStore (n : Naming) (id : String) : (n.noteStore id).bypassed = n.bypassed := by
  unfold noteStore
  split
  · rfl
  · exact (map_eq n id _).2.1

theorem noteStore_cases {n : Naming} (hn : 0 < n.assigned) (id : String) :
    (n.noteStore id = n ∧ (n.ignoring = true ∨ id ∈ n.bypassed ∨ (n.newName? id).isSome = true)) ∨
    (n.ignoring = false ∧ id ∉ n.bypassed ∧ n.newName? id = none ∧
      n.noteStore id = { n.map id (spell (n.assigned + 1).toNat) with assigned := n.assigned + 1 }) := by
  unfold noteStore
  split
  next hskip => exact .inl ⟨rfl, by simpa [or_assoc] using hskip⟩
  next hnote =>
    rw [generate_eq hn]
    simp only [Bool.or_eq_true, List.contains_iff_mem, not_or, Bool.not_eq_true, Option.isSome_eq_false_iff,
      Option.isNone_iff_eq_none] at hnote
    exact .inr ⟨hnote.1.1, hnote.1.2, hnote.2, rfl⟩

theorem newName_noted (n : Naming) (old new id : String) (a : Int) :
    Naming.newName? { n.map old new with assigned := a } id = if id = old then some new else n.newName? id :=
  newName_map n old new id

/-- What noting stored names makes of a naming: all of `least` get a new name unless they are bypassed or ignored,
and none but those of `most` do. -/
structure Notes (least most : List String) (n m : Naming) : Prop where
  positive : 0 < n.assigned
  phase_eq : m.phase = n.phase
  bypassed_subset : n.bypassed ⊆ m.bypassed
  attentive : n.ignoring = false → m.ignoring = false
  assigned_le : n.assigned ≤ m.assigned
  kept : ∀ {id new}, n.newName? id = some new → m.newName? id = some new
  named : ∀ {id}, id ∈ least → id ∉ m.bypassed → n.ignoring = false → (m.newName? id).isSome
  added : ∀ {id new}, m.newName? id = some new → n.newName? id = some new ∨
    id ∈ most ∧ id ∉ n.bypassed ∧ ∃ k, n.assigned < k ∧ k ≤ m.assigned ∧ new = spell k.toNat
  apart : ∀ {id id' new}, n.newName? id = none → n.newName? id' = none →
    m.newName? id = some new → m.newName? id' = some new → id = id'

namespace Notes
variable {least most least' most' : List String} {n m k : Naming}

theorem refl (h : 0 < n.assigned) (most : List String) : Notes [] most n n where
  positive := h
  phase_eq := rfl
  bypassed_subset := List.Subset.refl _
  attentive := id
  assigned_le := Int.le_refl _
  kept := id
  named := by simp
  added := .inl
  apart := fun hnone _ hsome _ => by simp [hnone] at hsome

theorem noteStore (n : Naming) (id : String) (h : 0 < n.assigned) : Notes [id] [id] n (n.noteStore id) := by
  rcases noteStore_cases h id with ⟨heq, hskip⟩ | ⟨hignoring, hbypassed, hnone, heq⟩
  · rw [heq]
    refine { refl h [id] with named := ?_ }
    intro other hother hbypassed hignoring
    obtain rfl := List.mem_singleton.mp hother
    simpa [hignoring, hbypassed] using hskip
  · rw [heq]
    obtain ⟨hphase, hbypassed', hignoring', -⟩ := map_eq n id (spell (n.assigned + 1).toNat)
    refine ⟨h, hphase, hbypassed' ▸ List.Subset.refl _, fun hi => hignoring'.trans hi, Int.le_of_lt (Int.lt_succ _), ?_, ?_, ?_,
      ?_⟩
    · intro other new hnew
      have hne : other ≠ id := by
        rintro rfl
        simp [hnone] at hnew
      rw [newName_noted, if_neg hne, hnew]
    · intro other hother _ _
      rw [newName_noted, if_pos (List.mem_singleton.mp hother)]
      rfl
    · intro other new hnew
      rw [newName_noted] at hnew
      split at hnew
      next heq =>
        cases heq
        exact .inr ⟨by simp, hbypassed, n.assigned + 1, by omega, Int.le_refl _, (Option.some.inj hnew).symm⟩
      next => exact .inl hnew
    · intro a b new ha hb ha' hb'
      rw [newName_noted] at ha' hb'
      split at ha' <;> split at hb' <;> simp_all

theorem declare (h : 0 < n.assigned) (names : List String) :
    Notes [] [] n { n with bypassed := n.bypassed ++ names } :=
  { refl h [] with bypassed_subset := List.subset_append_left _ _, named := by simp }

theorem ignore (h : Notes least most { n with ignoring := true } m) : Notes [] most n { m with ignoring := false } :=
  { h with attentive := fun _ => rfl, named := by simp }

theorem weaken (h : Notes least most n m) (hleast : least' ⊆ least) (hmost : most ⊆ most') : Notes least' most' n m :=
  { h with
    named := fun hid => h.named (hleast hid)
    added := fun hnew => (h.added hnew).imp_right fun ⟨hid, hrest⟩ => ⟨hmost hid, hrest⟩ }

theorem trans (h : Notes least most n m) (h' : Notes least' most' m k) :
    Notes (least ++ least') (most ++ most') n k where
  positive := h.positive
  phase_eq := h'.phase_eq.trans h.phase_eq
  bypassed_subset := List.Subset.trans h.bypassed_subset h'.bypassed_subset
  attentive := fun hn => h'.attentive (h.attentive hn)
  assigned_le := Int.le_trans h.assigned_le h'.assigned_le
  kept := fun hn => h'.kept (h.kept hn)
  named := by
    intro id hid hbypassed hignoring
    rcases List.mem_append.mp hid with hid | hid
    · obtain ⟨new, hnew⟩ :=
        Option.isSome_iff_exists.mp (h.named hid (fun hm => hbypassed (h'.bypassed_subset hm)) hignoring)
      simp [h'.kept hnew]
    · exact h'.named hid hbypassed (h.attentive hignoring)
  added := by
    intro id new hnew
    rcases h'.added hnew with hold | ⟨hid, hbypassed, a, hlt, hle, rfl⟩
    · rcases h.added hold with hold | ⟨hid, hbypassed, a, hlt, hle, rfl⟩
      · exact .inl hold
      · exact .inr ⟨List.mem_append_left _ hid, hbypassed, a, hlt, Int.le_trans hle h'.assigned_le, rfl⟩
    · exact .inr ⟨List.mem_append_right _ hid, fun hn => hbypassed (h.bypassed_subset hn), a,
        Int.lt_of_le_of_lt h.assigned_le hlt, hle, rfl⟩
  apart := by
    intro id id' new hid hid' hnew hnew'
    have hpositive := h.positive
    -- a name that came in the second half has a greater number than all of the first
    have hlater : ∀ {a b}, n.newName? a = none → m.newName? a = some new → m.newName? b = none →
        k.newName? b = some new → False := by
      intro a b ha ham hb hbk
      rcases h.added ham with hold | ⟨_, _, i, hi, hi', hia⟩
      · simp [ha] at hold
      rcases h'.added hbk with hold | ⟨_, _, j, hj, _, hjb⟩
      · simp [hb] at hold
      have := spell_injective (hia.symm.trans hjb)
      omega
    cases hm : m.newName? id with
    | none =>
      cases hm' : m.newName? id' with
      | none => exact h'.apart hm hm' hnew hnew'
      | some other =>
        obtain rfl : other = new := Option.some.inj ((h'.kept hm').symm.trans hnew')
        exact (hlater hid' hm' hm hnew).elim
    | some other =>
      obtain rfl : other = new := Option.some.inj ((h'.kept hm).symm.trans hnew)
      cases hm' : m.newName? id' with
      | none => exact (hlater hid hm hm' hnew').elim
      | some other' =>
        obtain rfl : other' = other := Option.some.inj ((h'.kept hm').symm.trans hnew')
        exact h.apart hid hid' hm hm'

end Notes
end Naming
end SourceOptimizer.Pass.Rename
