import LanguageTheory.Proofs.Grammar.LeadingExpansion
import LanguageTheory.Proofs.Grammar.LeftFactoring

/-!
Rounds of factoring. A round exposes hidden common beginnings between two passes that factor the
visible ones. Every pass succeeds on the result of the one before and keeps the words of terminals.
Passes never take a non-terminal away, so when one more round changes nothing, its passes introduced
none, and then no two bodies of a head begin alike.
-/

set_option autoImplicit false
set_option relaxedAutoImplicit false

namespace LanguageTheory.Grammar

variable {G : Grammar}

section Passes

theorem wellFormed_factorDirectly (fits : G.WellFormed) (free : G.ContextFree) :
    G.factorDirectly.WellFormed := by
  obtain ⟨joints, factoring⟩ := exists_factoring free
  exact factoring.wellFormed fits

theorem separated_factorDirectly (apart : G.Separated) : G.factorDirectly.Separated := by
  obtain ⟨joints, factoring⟩ := exists_factoring apart.free
  exact factoring.separated apart

private theorem generates_factorDirectly_iff (apart : G.Separated) (word : Word) :
    G.factorDirectly.Generates word ↔ G.Generates word := by
  obtain ⟨joints, factoring⟩ := exists_factoring apart.free
  refine and_congr_right fun terminals => factoring.derives_iff apart.fits apart.free ?_ ?_
  · exact List.forall_mem_singleton.mpr (mem_symbols_of_nonTerminal apart.fits.start_mem)
  · exact fun symbol mem => mem_symbols_of_terminal (terminals symbol mem)

private theorem generates_exposed_iff (apart : G.Separated) (word : Word) :
    G.exposed.Generates word ↔ G.Generates word :=
  and_congr_right fun terminals =>
    derives_exposed_iff apart.free (apart.disjoint.outside terminals)

theorem directFactorization_eq (free : G.ContextFree) :
    G.directFactorization = .ok G.factorDirectly := by
  rw [directFactorization, requireContextFree_iff.mpr free]
  rfl

theorem indirectFactorization_eq (free : G.ContextFree) :
    G.indirectFactorization = .ok G.exposed.factorDirectly := by
  rw [indirectFactorization, requireContextFree_iff.mpr free]
  exact directFactorization_eq (contextFree_withTable G _)

end Passes

section Rounds

def factorRound (G : Grammar) : Grammar := G.factorDirectly.exposed.factorDirectly

theorem factorRounds_succ (free : G.ContextFree) (rounds : Nat) :
    factorRounds (rounds + 1) G =
      if G.factorRound.Same G then .ok G else factorRounds rounds G.factorRound := by
  have free' : G.factorDirectly.ContextFree := contextFree_withTable G _
  simp only [factorRounds, directFactorization_eq free, bind, Except.bind,
    indirectFactorization_eq free']
  rfl

private theorem separated_factorRound (apart : G.Separated) : G.factorRound.Separated :=
  separated_factorDirectly (separated_exposed (separated_factorDirectly apart))

private theorem generates_factorRound_iff (apart : G.Separated) (word : Word) :
    G.factorRound.Generates word ↔ G.Generates word := by
  have apart' := separated_factorDirectly apart
  calc G.factorRound.Generates word
    _ ↔ G.factorDirectly.exposed.Generates word :=
      generates_factorDirectly_iff (separated_exposed apart') word
    _ ↔ G.factorDirectly.Generates word := generates_exposed_iff apart' word
    _ ↔ G.Generates word := generates_factorDirectly_iff apart word

theorem exists_factorRounds (apart : G.Separated) (rounds : Nat) :
    ∃ H, factorRounds rounds G = .ok H ∧
    H.Separated ∧ ∀ word, H.Generates word ↔ G.Generates word := by
  induction rounds generalizing G with
  | zero => exact ⟨G, rfl, apart, fun _ => Iff.rfl⟩
  | succ rounds ih =>
    rw [factorRounds_succ apart.free]
    split
    · exact ⟨G, rfl, apart, fun _ => Iff.rfl⟩
    · obtain ⟨H, done, apart', words⟩ := ih (separated_factorRound apart)
      exact ⟨H, done, apart', fun word => (words word).trans (generates_factorRound_iff apart word)⟩

private theorem factorRounds_settled (apart : G.Separated) {rounds : Nat} {H K : Grammar}
    (done : factorRounds rounds G = .ok H) (more : factorRounds (rounds + 1) G = .ok K)
    (same : H.Same K) :
    ∀ symbol ∈ H.factorRound.nonTerminals, symbol ∈ H.nonTerminals := by
  induction rounds generalizing G with
  | zero =>
    -- The result is the grammar itself: the further round was stopped by it or is compared with it.
    obtain rfl : G = H := Except.ok.inj done
    rw [factorRounds_succ apart.free] at more
    split at more
    · rename_i stable
      exact stable.1.1
    · obtain rfl : G.factorRound = K := Except.ok.inj more
      exact same.1.2
  | succ rounds ih =>
    rw [factorRounds_succ apart.free] at done more
    split at done
    · rename_i stable
      obtain rfl : G = H := Except.ok.inj done
      exact stable.1.1
    · rename_i changed
      rw [if_neg changed] at more
      exact ih (separated_factorRound apart) done more

private theorem leftFactored_of_settled (apart : G.Separated)
    (settled : ∀ symbol ∈ G.factorRound.nonTerminals, symbol ∈ G.nonTerminals) :
    G.LeftFactored := by
  obtain ⟨joints, factoring⟩ := exists_factoring apart.free
  have free : G.factorDirectly.ContextFree := contextFree_withTable G _
  obtain ⟨joints', factoring'⟩ := exists_factoring (G := G.factorDirectly.exposed)
    (contextFree_withTable G.factorDirectly _)
  refine factoring.leftFactored apart.free fun symbol known => settled symbol ?_
  exact factoring'.mem_nonTerminals_of_mem ((mem_nonTerminals_mapValues free).mpr known)

/-- Factoring succeeds with every limit on the rounds and keeps the words that are generated; if one
more round does not change the result, no head of it has two bodies that begin with the same
symbol. -/
theorem factorize_exact (fits : G.WellFormed) (free : G.ContextFree) (disjoint : G.Disjoint)
    (rounds : Nat) :
    ∃ H, G.factorize rounds = .ok H ∧ (∀ word, H.Generates word ↔ G.Generates word) ∧
      ∀ K, G.factorize (rounds + 1) = .ok K → H.Same K → H.LeftFactored := by
  have checked (limit : Nat) : G.factorize limit = factorRounds limit G := by
    rw [factorize, requireContextFree_iff.mpr free]
    rfl
  have apart : G.Separated := ⟨fits, free, disjoint⟩
  obtain ⟨H, done, apart', words⟩ := exists_factorRounds apart rounds
  refine ⟨H, (checked rounds).trans done, words, fun K more same => ?_⟩
  rw [checked] at more
  exact leftFactored_of_settled apart' (factorRounds_settled apart done more same)

theorem factorize_exact_hidden_beginning :
    ∃ G H K, ofProductions (OrderedSet.ofList ["S", "A"]) (OrderedSet.ofList ["a", "b", "c"]) "S"
        [⟨["S"], ["A", "b"]⟩, ⟨["S"], ["a", "c"]⟩, ⟨["A"], ["a"]⟩] = .ok G ∧
      G.WellFormed ∧ G.ContextFree ∧ G.Disjoint ∧ G.factorize 1 = .ok H ∧ G.factorize 2 = .ok K ∧
      H.Same K ∧ ¬ H.Same G ∧ H.LeftFactored ∧ H.Generates ["a", "c"] := by
  obtain ⟨G, H, K, built, free, disjoint, first, second, same, changed, start, word, production⟩ :
      ∃ G H K, ofProductions (OrderedSet.ofList ["S", "A"]) (OrderedSet.ofList ["a", "b", "c"]) "S"
          [⟨["S"], ["A", "b"]⟩, ⟨["S"], ["a", "c"]⟩, ⟨["A"], ["a"]⟩] = .ok G ∧
        G.ContextFree ∧ G.Disjoint ∧ G.factorize 1 = .ok H ∧ G.factorize 2 = .ok K ∧ H.Same K ∧
        ¬ H.Same G ∧ G.start = "S" ∧ (∀ symbol ∈ ["a", "c"], symbol ∈ G.terminals) ∧
        ⟨["S"], ["a", "c"]⟩ ∈ G.rules.productions :=
    ⟨_, _, _, rfl, by decide, by decide, rfl, rfl, by decide, by decide, rfl, by decide, by decide⟩
  have fits := wellFormed_of_ofProductions built
  obtain ⟨H', done, generated, factored⟩ := factorize_exact fits free disjoint 1
  obtain rfl : H = H' := Except.ok.inj (first.symm.trans done)
  have derivation : G.Derives [G.start] ["a", "c"] := by
    rw [start]
    exact .single (Step.of_mem production)
  exact ⟨G, H, K, built, fits, free, disjoint, first, second, same, changed, factored K second same,
    (generated _).mpr ⟨word, derivation⟩⟩

end Rounds

end LanguageTheory.Grammar
