/-
# Proofs inside definitions

A numeral of a field holds a proof that it is two or more, and a composition of linear maps
one about its rings. Those that occur in several modules have names here, so that they are
no part of the definition that has them first.
-/
import Mathlib

namespace Lib.Numerals

instance two : Nat.AtLeastTwo 2 := ⟨by decide⟩
instance three : Nat.AtLeastTwo 3 := ⟨by decide⟩
instance four : Nat.AtLeastTwo 4 := ⟨by decide⟩
instance ten : Nat.AtLeastTwo 10 := ⟨by decide⟩

instance comp {K : Type*} [Field K] :
    RingHomCompTriple (RingHom.id K) (RingHom.id K) (RingHom.id K) := .ids

end Lib.Numerals
