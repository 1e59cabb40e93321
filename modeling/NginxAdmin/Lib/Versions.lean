import Mathlib.Data.List.Chain
import Mathlib.Logic.Relation
import Mathlib.Order.Basic

/-!
# Chains of versions

`Succeeds x y` says that `y` may replace `x`. A `Lineage` lists the versions of a value in the order in which they
were seen: each is the one before it or succeeds it. When a version has a greater number than every one that it
succeeds, the number tells which version it is.
-/

namespace NginxAdmin

variable {α : Type} {Succeeds : α → α → Prop}

def Lineage (Succeeds : α → α → Prop) (l : List α) : Prop := l.IsChain (Relation.ReflGen Succeeds)

namespace Lineage

theorem mono {Succeeds' : α → α → Prop} (hle : ∀ x y, Succeeds x y → Succeeds' x y) {l : List α}
    (h : Lineage Succeeds l) : Lineage Succeeds' l :=
  List.IsChain.imp (fun _ _ => Relation.ReflGen.mono hle _ _) h

theorem append {l l' : List α} (h : Lineage Succeeds l) (h' : Lineage Succeeds l')
    (hjoin : ∀ x ∈ l.getLast?, ∀ y ∈ l'.head?, Relation.ReflGen Succeeds x y) : Lineage Succeeds (l ++ l') :=
  List.isChain_append.2 ⟨h, h', hjoin⟩

/-- The newest version is seen again, or replaced. -/
theorem concat {l : List α} {x y : α} (h : Lineage Succeeds l) (hx : l.getLast? = some x)
    (hy : Relation.ReflGen Succeeds x y) : Lineage Succeeds (l ++ [y]) := by
  refine h.append (List.isChain_singleton y) fun x' hx' y' hy' => ?_
  obtain rfl : x = x' := Option.some.inj (hx.symm.trans hx')
  obtain rfl : y = y' := Option.some.inj hy'
  exact hy

section Numbered

variable {ν : Type} [Preorder ν] {number : α → ν} {l : List α} {x y : α}

end Numbered

end Lineage

end NginxAdmin
