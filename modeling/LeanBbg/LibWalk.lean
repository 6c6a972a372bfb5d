import Mathlib

/-! Walks in a directed graph whose edges are the values of a partial map. A walk can be cut to one that
uses no edge twice, so the shortest one is not longer than the number of edges. -/

namespace LeanBbg.Walk

variable {K V : Type} {m : K → Option (V × V)}

/-- A walk of `n` edges. -/
inductive Path (m : K → Option (V × V)) : Nat → V → V → Prop where
  | nil (u : V) : Path m 0 u u
  | cons {n : Nat} {u w v : V} (k : K) (hk : m k = some (u, w)) (rest : Path m n w v) : Path m (n + 1) u v

/-- The length of a shortest walk. -/
noncomputable def distance (m : K → Option (V × V)) (u v : V) : Nat := sInf {n | Path m n u v}

/-- A walk along the edges of a list of keys. -/
inductive Along (m : K → Option (V × V)) : List K → V → V → Prop where
  | nil (u : V) : Along m [] u u
  | cons {ks : List K} {u w v : V} (k : K) (hk : m k = some (u, w)) (rest : Along m ks w v) : Along m (k :: ks) u v

theorem Path.along {n : Nat} {u v : V} (h : Path m n u v) : ∃ ks, Along m ks u v := by
  induction h with
  | nil u => exact ⟨[], .nil u⟩
  | cons k hk _ ih =>
      obtain ⟨ks, hks⟩ := ih
      exact ⟨k :: ks, .cons k hk hks⟩

theorem Along.path {ks : List K} {u v : V} (h : Along m ks u v) : Path m ks.length u v := by
  induction h with
  | nil u => exact .nil u
  | cons k hk _ ih => exact .cons k hk ih

theorem Along.edge {ks : List K} {u v : V} (h : Along m ks u v) {k : K} (hk : k ∈ ks) : ∃ e, m k = some e := by
  induction h with
  | nil u => cases hk
  | cons k' hk' _ ih =>
      rcases List.mem_cons.mp hk with rfl | hk
      · exact ⟨_, hk'⟩
      · exact ih hk

/-- The rest of a walk from an edge on. -/
theorem Along.drop {ks ks' : List K} {k : K} {u v : V} (h : Along m (ks ++ k :: ks') u v) :
    ∃ w, Along m (k :: ks') w v := by
  induction ks generalizing u with
  | nil => exact ⟨u, h⟩
  | cons k' ks ih =>
      cases h with
      | cons _ _ rest => exact ih rest

/-- A walk can be cut to one without a repeated edge. -/
theorem Along.exists_nodup {ks : List K} {u v : V} (h : Along m ks u v) : ∃ ks', Along m ks' u v ∧ ks'.Nodup := by
  classical
  induction h with
  | nil u => exact ⟨[], .nil u, List.nodup_nil⟩
  | cons k hk _ ih =>
      obtain ⟨ks', hks', hnodup⟩ := ih
      by_cases hmem : k ∈ ks'
      · -- the edge is used again: go on from its last use
        obtain ⟨before, after, rfl⟩ := List.append_of_mem hmem
        obtain ⟨w, hafter⟩ := hks'.drop
        cases hafter with
        | cons _ hk' rest =>
            obtain ⟨rfl, rfl⟩ := Prod.mk.inj (Option.some_inj.mp (hk.symm.trans hk'))
            exact ⟨k :: after, .cons k hk rest, (List.nodup_append.mp hnodup).2.1⟩
      · exact ⟨k :: ks', .cons k hk hks', List.nodup_cons.mpr ⟨hmem, hnodup⟩⟩

/-- A shortest walk is not longer than the longest list of distinct edges. -/
theorem distance_le {bound n : Nat} {u v : V} (h : Path m n u v)
    (hbound : ∀ ks : List K, ks.Nodup → (∀ k ∈ ks, ∃ e, m k = some e) → ks.length ≤ bound) : distance m u v ≤ bound := by
  obtain ⟨ks, hks⟩ := h.along
  obtain ⟨ks', hks', hnodup⟩ := hks.exists_nodup
  exact (Nat.sInf_le hks'.path).trans (hbound ks' hnodup fun k hk => hks'.edge hk)

end LeanBbg.Walk
