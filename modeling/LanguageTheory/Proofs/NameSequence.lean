import LanguageTheory.Proofs.FreshName

/-!
Names that a supply gives one after the other. The search for a free name needs no bound of its own:
as no candidate comes twice, it leaves the taken names behind after at most as many steps as there
are taken names (`SearchEnds`, which is the search without a bound). Every name is the candidate at
a place further on than those of the names before it, so no name comes twice, however free and taken
names are asked for in turn.
-/

set_option autoImplicit false
set_option relaxedAutoImplicit false

namespace LanguageTheory

section Search

/-- The search without a bound: a taken candidate leads on to the next one, and the first free
candidate ends it. -/
inductive SearchEnds (candidate : Nat → String) (taken : List String) : Nat → Nat → Prop
  | free {index : Nat} (new : candidate index ∉ taken) : SearchEnds candidate taken index index
  | occupied {index last : Nat} (old : candidate index ∈ taken)
      (later : SearchEnds candidate taken (index + 1) last) : SearchEnds candidate taken index last

variable {candidate : Nat → String} {taken : List String} {fuel index last : Nat}

private theorem SearchEnds.not_mem (ends : SearchEnds candidate taken index last) :
    candidate last ∉ taken := by
  induction ends with
  | free new => exact new
  | occupied _ _ ih => exact ih

private theorem SearchEnds.le (ends : SearchEnds candidate taken index last) : index ≤ last := by
  induction ends with
  | free _ => exact Nat.le_refl _
  | occupied _ _ ih => exact Nat.le_of_succ_le ih

private theorem firstFree_le (candidate : Nat → String) (taken : List String) (fuel index : Nat) :
    firstFree candidate taken fuel index ≤ index + fuel := by
  induction fuel generalizing index with
  | zero => exact Nat.le_refl index
  | succ fuel ih =>
    unfold firstFree
    split
    · have later := ih (index + 1)
      omega
    · omega

private theorem searchEnds_of_free
    (free : candidate (firstFree candidate taken fuel index) ∉ taken) :
    SearchEnds candidate taken index (firstFree candidate taken fuel index) := by
  induction fuel generalizing index with
  | zero => exact .free free
  | succ fuel ih =>
    unfold firstFree at free ⊢
    split
    · rename_i old
      rw [if_pos old] at free
      exact .occupied old (ih free)
    · rename_i new
      exact .free new

private theorem searchEnds_firstFree (injective : Function.Injective candidate)
    (taken : List String) (index : Nat) :
    SearchEnds candidate taken index (firstFree candidate taken taken.length index) :=
  searchEnds_of_free (firstFree_not_mem injective taken index)

end Search

namespace SymbolPool

def drawn : Nat → SymbolPool → List Symbol
  | 0, _ => []
  | count + 1, pool => pool.fresh.1 :: drawn count pool.fresh.2

private theorem length_drawn (count : Nat) (pool : SymbolPool) :
    (drawn count pool).length = count := by
  induction count generalizing pool with
  | zero => rfl
  | succ count ih => exact congrArg Nat.succ (ih pool.fresh.2)

private theorem exists_draws (count : Nat) (pool : SymbolPool) :
    ∃ last, Draws pool (drawn count pool) last := by
  induction count generalizing pool with
  | zero => exact ⟨pool, .nil pool⟩
  | succ count ih =>
    obtain ⟨last, rest⟩ := ih pool.fresh.2
    exact ⟨last, .cons rest⟩

end SymbolPool

namespace StateNameSupply

/-- What a supply is asked for: the next name, or the next one that is not taken. -/
inductive Request where
  | next
  | nextFree (taken : List StateName)

def Request.taken : Request → List StateName
  | next => []
  | nextFree taken => taken

def answer (supply : StateNameSupply) : Request → StateName × StateNameSupply
  | .next => supply.next
  | .nextFree taken => supply.nextFree taken

def answers : List Request → StateNameSupply → List StateName
  | [], _ => []
  | request :: later, supply => (supply.answer request).1 :: answers later (supply.answer request).2

variable (supply : StateNameSupply) (request : Request) (requests : List Request)

private theorem exists_answer_eq :
    ∃ index, SearchEnds supply.candidate request.taken supply.counter index ∧
    supply.answer request = (supply.candidate index, ⟨supply.stem, index + 1⟩) := by
  cases request with
  | next => exact ⟨supply.counter, .free List.not_mem_nil, rfl⟩
  | nextFree taken =>
    exact ⟨_, searchEnds_firstFree supply.candidate_injective taken supply.counter, rfl⟩

private theorem length_answers : (answers requests supply).length = requests.length := by
  induction requests generalizing supply with
  | nil => rfl
  | cons request later ih => exact congrArg Nat.succ (ih (supply.answer request).2)

private theorem exists_index_of_mem_answers : ∀ name ∈ answers requests supply,
    ∃ index, supply.counter ≤ index ∧ name = supply.candidate index := by
  induction requests generalizing supply with
  | nil => exact fun name none => absurd none List.not_mem_nil
  | cons request later ih =>
    obtain ⟨index, ends, answered⟩ := supply.exists_answer_eq request
    rw [answers, answered]
    refine List.forall_mem_cons.mpr ⟨⟨index, ends.le, rfl⟩, fun name mem => ?_⟩
    obtain ⟨place, further, same⟩ := ih ⟨supply.stem, index + 1⟩ name mem
    exact ⟨place, ends.le.trans (Nat.le_of_succ_le further), same⟩

private theorem nodup_answers : (answers requests supply).Nodup := by
  induction requests generalizing supply with
  | nil => exact List.nodup_nil
  | cons request later ih =>
    obtain ⟨index, _, answered⟩ := supply.exists_answer_eq request
    rw [answers, answered]
    refine List.nodup_cons.mpr ⟨fun again => ?_, ih _⟩
    obtain ⟨place, further, same⟩ :=
      exists_index_of_mem_answers ⟨supply.stem, index + 1⟩ later _ again
    have places : index = place := supply.candidate_injective same
    exact Nat.not_succ_le_self index (places ▸ further)

private theorem answers_not_taken :
    ∀ pair ∈ requests.zip (answers requests supply), pair.2 ∉ pair.1.taken := by
  induction requests generalizing supply with
  | nil => exact fun pair none => absurd none List.not_mem_nil
  | cons request later ih =>
    obtain ⟨index, ends, answered⟩ := supply.exists_answer_eq request
    rw [answers, answered, List.zip_cons_cons]
    exact List.forall_mem_cons.mpr ⟨ends.not_mem, ih _⟩

end StateNameSupply

/-- Every search for a new symbol or a free name ends, after at most as many steps as there are
names to avoid. The symbols that a pool hands out are pairwise distinct and none of them was used;
the names that a supply gives are pairwise distinct, and none is given that is taken when it is
asked for. -/
theorem new_names_exact :
    (∀ pool : SymbolPool, ∃ index, SearchEnds SymbolPool.candidate pool.used pool.counter index ∧
      index ≤ pool.counter + pool.used.length ∧
      pool.fresh = (SymbolPool.candidate index,
        ⟨SymbolPool.candidate index :: pool.used, index + 1⟩)) ∧
    (∀ (used : List Symbol) (count : Nat),
      (SymbolPool.drawn count (.avoiding used)).length = count ∧
      (SymbolPool.drawn count (.avoiding used)).Nodup ∧
      ∀ symbol ∈ SymbolPool.drawn count (.avoiding used), symbol ∉ used) ∧
    (∀ (supply : StateNameSupply) (taken : List StateName),
      ∃ index, SearchEnds supply.candidate taken supply.counter index ∧
        index ≤ supply.counter + taken.length ∧
        supply.nextFree taken = (supply.candidate index, ⟨supply.stem, index + 1⟩)) ∧
    ∀ (stem : String) (requests : List StateNameSupply.Request),
      (StateNameSupply.answers requests (.ofStem stem)).length = requests.length ∧
      (StateNameSupply.answers requests (.ofStem stem)).Nodup ∧
      ∀ pair ∈ requests.zip (StateNameSupply.answers requests (.ofStem stem)),
        pair.2 ∉ pair.1.taken := by
  refine ⟨fun pool => ?_, fun used count => ?_, fun supply taken => ?_, fun stem requests => ?_⟩
  · exact ⟨_, searchEnds_firstFree SymbolPool.candidate_injective pool.used pool.counter,
      firstFree_le _ _ _ _, rfl⟩
  · obtain ⟨last, draws⟩ := SymbolPool.exists_draws count (.avoiding used)
    exact ⟨SymbolPool.length_drawn _ _, draws.nodup, draws.not_mem⟩
  · exact ⟨_, searchEnds_firstFree supply.candidate_injective taken supply.counter,
      firstFree_le _ _ _ _, rfl⟩
  · exact ⟨StateNameSupply.length_answers _ _, StateNameSupply.nodup_answers _ _,
      StateNameSupply.answers_not_taken _ _⟩

/-- Taken names are skipped for good: the request after them goes on behind the name that was
free. -/
example : StateNameSupply.answers [.next, .nextFree ["q1", "q0", "q2"], .next] (.ofStem "q") =
    ["q0", "q3", "q4"] := by decide

end LanguageTheory
