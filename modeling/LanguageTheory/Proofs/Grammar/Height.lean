import Mathlib.Order.Lattice.Nat
import LanguageTheory.Proofs.Collection.Stages
import LanguageTheory.Proofs.Grammar.First

/-!
Heights of the trees by which symbols vanish or lead to a terminal. The least such height is at most
about the number of non-terminals, since on a lowest tree no non-terminal lies below itself.
-/

set_option autoImplicit false
set_option relaxedAutoImplicit false

namespace LanguageTheory.Grammar

variable {G : Grammar}

noncomputable def vanishHeight (G : Grammar) (symbol : Symbol) : Nat :=
  sInf {height | G.VanishesWithin height symbol}

noncomputable def leadHeight (G : Grammar) (t symbol : Symbol) : Nat :=
  sInf {height | G.LeadsWithin t height symbol}

theorem Vanishes.within {symbol : Symbol} (vanish : G.Vanishes symbol) :
    G.VanishesWithin (G.vanishHeight symbol) symbol := Nat.sInf_mem vanish

theorem Leads.within {t symbol : Symbol} (lead : G.Leads t symbol) :
    G.LeadsWithin t (G.leadHeight t symbol) symbol := Nat.sInf_mem lead

theorem VanishesWithin.vanishHeight_le {height : Nat} {symbol : Symbol}
    (vanish : G.VanishesWithin height symbol) : G.vanishHeight symbol ≤ height := Nat.sInf_le vanish

theorem LeadsWithin.leadHeight_le {height : Nat} {t symbol : Symbol}
    (lead : G.LeadsWithin t height symbol) : G.leadHeight t symbol ≤ height := Nat.sInf_le lead

private theorem settled_vanishesWithin {stage : Nat} (settled : Settled G.VanishesWithin stage) :
    Settled G.VanishesWithin (stage + 1) := by
  rintro head ⟨body, mem, all⟩
  refine ⟨stage + 1, le_rfl, body, mem, fun symbol member => ?_⟩
  obtain ⟨earlier, le, vanish⟩ := settled symbol (all symbol member)
  exact vanish.mono le

private theorem settled_leadsWithin {t : Symbol} {stage : Nat}
    (settled : Settled (G.LeadsWithin t) stage) :
    Settled (G.LeadsWithin t) (stage + 1) := by
  rintro head ⟨body, mem, fronted⟩
  have early : Fronted G.Vanishes
      (fun symbol => ∃ earlier, earlier ≤ stage ∧ G.LeadsWithin t earlier symbol) body :=
    fronted.imp (fun _ _ vanish => vanish) fun symbol _ lead => settled symbol lead
  obtain ⟨earlier, bounded⟩ := fronted_exists_iff.mp early
  obtain ⟨_, _, le, _⟩ := bounded.exists_lead
  exact ⟨earlier + 1, by omega, body, mem,
    bounded.imp (fun _ _ vanish => vanish) fun _ _ lead => lead.2⟩

private theorem card_nonTerminals_le (G : Grammar) :
    G.nonTerminals.toList.toFinset.card ≤ G.nonTerminals.size :=
  G.nonTerminals.toList.toFinset_card_le

theorem vanishHeight_le (free : G.ContextFree) (symbol : Symbol) :
    G.vanishHeight symbol ≤ G.nonTerminals.size := by
  by_cases vanish : ∃ height, G.VanishesWithin height symbol
  · obtain ⟨height, now⟩ := vanish
    obtain ⟨earlier, le, before⟩ := exists_stage_le G.nonTerminals.toList.toFinset
      (fun height other now => List.mem_toFinset.mpr (Vanishes.mem free ⟨height, now⟩))
      (fun _ => settled_vanishesWithin) now
    exact (before.vanishHeight_le.trans le).trans G.card_nonTerminals_le
  · have none : {height | G.VanishesWithin height symbol} = ∅ :=
      Set.eq_empty_of_forall_notMem fun height now => vanish ⟨height, now⟩
    rw [vanishHeight, none, Nat.sInf_empty]
    exact Nat.zero_le _

theorem leadHeight_le (free : G.ContextFree) (t symbol : Symbol) :
    G.leadHeight t symbol ≤ G.nonTerminals.size + 1 := by
  by_cases lead : ∃ height, G.LeadsWithin t height symbol
  · obtain ⟨height, now⟩ := lead
    have inside : ∀ height other, G.LeadsWithin t height other →
        other ∈ insert t G.nonTerminals.toList.toFinset := by
      intro height other now
      rw [Finset.mem_insert, List.mem_toFinset]
      rcases leads_iff.mp ⟨height, now⟩ with ⟨same, _⟩ | ⟨_, mem, _⟩
      · exact Or.inl same
      · exact Or.inr (free.head_mem mem)
    obtain ⟨earlier, le, before⟩ := exists_stage_le _ inside (fun _ => settled_leadsWithin) now
    have one := Finset.card_insert_le t G.nonTerminals.toList.toFinset
    have few := G.card_nonTerminals_le
    have low := before.leadHeight_le
    omega
  · have none : {height | G.LeadsWithin t height symbol} = ∅ :=
      Set.eq_empty_of_forall_notMem fun height now => lead ⟨height, now⟩
    rw [leadHeight, none, Nat.sInf_empty]
    exact Nat.zero_le _

end LanguageTheory.Grammar
