import Cupcake.Selinux.Ebitmap.Defs

/-! The levels of `mls_types.h`. -/

namespace Cupcake.Selinux

@[ext]
structure MlsLevel where
  sens : ℕ
  cat : Ebitmap

@[ext]
structure MlsRange where
  low : MlsLevel
  high : MlsLevel

def mlsLevelEq (l₁ l₂ : MlsLevel) : Bool := l₁.sens = l₂.sens && ebitmapCmp l₁.cat l₂.cat

def mlsLevelDom (l₁ l₂ : MlsLevel) : Bool := l₁.sens ≥ l₂.sens && ebitmapContains l₁.cat l₂.cat 0

def mlsLevelIncomp (l₁ l₂ : MlsLevel) : Bool := !mlsLevelDom l₁ l₂ && !mlsLevelDom l₂ l₁

end Cupcake.Selinux
