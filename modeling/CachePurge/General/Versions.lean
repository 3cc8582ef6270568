import Mathlib.Order.Lattice

/-! What a generation table is for: a live version for every key, and
publications that give a set of keys a version newer than all versions so far.
Keys and versions are arbitrary; a table that hands out a version above its
serial cannot be built. -/
namespace CachePurge.General

structure VersionTable (K V : Type) [LinearOrder V] where
  serial : V
  live : K → V
  bounded : ∀ k, live k ≤ serial

namespace VersionTable
variable {K V : Type} [LinearOrder V] {a b c : VersionTable K V}

structure Publishes (covered : K → Prop) (a b : VersionTable K V) : Prop where
  fresh : a.serial < b.serial
  stamped : ∀ k, covered k → b.live k = b.serial
  kept : ∀ k, ¬ covered k → b.live k = a.live k

structure Grows (a b : VersionTable K V) : Prop where
  serial : a.serial ≤ b.serial
  live : ∀ k, a.live k ≤ b.live k

theorem growsRefl (a : VersionTable K V) : Grows a a := ⟨le_rfl,fun _ => le_rfl⟩

theorem growsTrans (left : Grows a b) (right : Grows b c) : Grows a c :=
  ⟨left.serial.trans right.serial,fun k => (left.live k).trans (right.live k)⟩

theorem stampedAbove {covered : K → Prop} (step : Publishes covered a b) {k : K} (covers : covered k) :
    a.serial < b.live k := by
  rw [step.stamped k covers]
  exact step.fresh

theorem publishGrows {covered : K → Prop} (step : Publishes covered a b) : Grows a b := by
  refine ⟨step.fresh.le,fun k => ?_⟩
  by_cases covers : covered k
  · exact (a.bounded k).trans (stampedAbove step covers).le
  · exact (step.kept k covers).ge

end VersionTable
end CachePurge.General
