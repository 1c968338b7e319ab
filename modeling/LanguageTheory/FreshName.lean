import LanguageTheory.Symbol

/-!
Supplies of new names. Both supplies number their candidates and hand out the first one from their
counter on that is not taken. The candidates are pairwise distinct, so among one more candidates
than there are taken names one is free; `firstFree` looks at no more than that.
-/

set_option autoImplicit false
set_option relaxedAutoImplicit false

namespace LanguageTheory

/-- The first index from `index` on, up to `fuel` places further, whose candidate is not taken. -/
def firstFree (candidate : Nat → String) (taken : List String) : Nat → Nat → Nat
  | 0, index => index
  | fuel + 1, index =>
    if candidate index ∈ taken then firstFree candidate taken fuel (index + 1) else index

/-- A supply of state names: a stem followed by a counter. -/
structure StateNameSupply where
  stem : String
  counter : Nat

namespace StateNameSupply

/-- The stem of the state names that no caller chose. -/
def defaultStem : String := "q"

def ofStem (stem : String) : StateNameSupply := ⟨stem, 0⟩

def candidate (supply : StateNameSupply) (index : Nat) : StateName :=
  supply.stem ++ toString index

/-- The next name, whether it is taken or not. -/
def next (supply : StateNameSupply) : StateName × StateNameSupply :=
  (supply.candidate supply.counter, { supply with counter := supply.counter + 1 })

def nextFree (supply : StateNameSupply) (taken : List StateName) : StateName × StateNameSupply :=
  let index := firstFree supply.candidate taken taken.length supply.counter
  (supply.candidate index, { supply with counter := index + 1 })

end StateNameSupply

/-- A supply of symbols that avoids the used ones and those it has handed out. -/
structure SymbolPool where
  used : List Symbol
  counter : Nat

namespace SymbolPool

def letters : List Symbol := ["Δ", "Γ", "Θ", "Λ", "Ξ", "Π", "Σ", "Φ", "Ψ", "Ω"]

/-- The letters in turn, then the letters with a 1, then with a 2, and so on. -/
def candidate (index : Nat) : Symbol :=
  let letter := letters.getD (index % letters.length) ""
  let round := index / letters.length
  if round = 0 then letter else letter ++ toString round

def avoiding (used : List Symbol) : SymbolPool := ⟨used, 0⟩

def fresh (pool : SymbolPool) : Symbol × SymbolPool :=
  let index := firstFree candidate pool.used pool.used.length pool.counter
  (candidate index, ⟨candidate index :: pool.used, index + 1⟩)

end SymbolPool

end LanguageTheory
