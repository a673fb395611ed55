/-
# SymbolAtlas.Cancellation -- requests that are given up

Work that can be canceled looks from time to time whether it was.  A cancellation says at
which of these looks it is seen; nothing is assumed about when it came.
-/

set_option autoImplicit false

namespace SymbolAtlas

/-- What looks of a kind see. -/
structure Cancellation (Look : Type) where
  seen : Look → Bool

namespace Cancellation

variable {Look : Type}

/-- Every look sees the same. -/
instance : Coe Bool (Cancellation Look) := ⟨fun canceled => ⟨fun _ => canceled⟩⟩

instance : Inhabited (Cancellation Look) := ⟨false⟩

/-- What looks of one kind see among others. -/
def among {Other : Type} (c : Cancellation Look) (kind : Other → Look) : Cancellation Other :=
  ⟨fun look => c.seen (kind look)⟩

end Cancellation
end SymbolAtlas
