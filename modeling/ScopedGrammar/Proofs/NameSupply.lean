import Mathlib.Data.List.Nodup
import Std.Data.String.ToNat
import ScopedGrammar.NameSupply

/-!
# Issued names

A supply hands out names in the order of their numbers, and different numbers have different names.
So the names taken between two states of a supply are distinct, and none of them was issued before.
-/
namespace ScopedGrammar.NameSupply

theorem nameOf_injective {m n : Nat} (h : nameOf m = nameOf n) : m = n :=
  Nat.repr_injective (String.append_right_inj _ |>.mp h)

/-- The supply has issued the name. -/
def Issued (s : NameSupply) (x : String) : Prop := ∃ n < s.issued, x = nameOf n

theorem Issued.mono {s s' : NameSupply} {x : String} (h : s.issued ≤ s'.issued) :
    s.Issued x → s'.Issued x
  | ⟨n, hn, hx⟩ => ⟨n, by omega, hx⟩

theorem issued_next (s : NameSupply) : s.next.2.Issued s.next.1 := ⟨s.issued, by simp [next], rfl⟩

@[simp] theorem next_issued (s : NameSupply) : s.next.2.issued = s.issued + 1 := rfl

/-- The supply will not issue the name: it has done so before, or it never does. -/
def Avoids (s : NameSupply) (x : String) : Prop := ∀ n, x = nameOf n → n < s.issued

theorem Issued.avoids {s : NameSupply} {x : String} : s.Issued x → s.Avoids x := by
  rintro ⟨m, hm, rfl⟩ n hn
  rwa [← nameOf_injective hn]

theorem Avoids.mono {s s' : NameSupply} {x : String} (h : s.issued ≤ s'.issued)
    (hx : s.Avoids x) : s'.Avoids x := fun n hn => Nat.lt_of_lt_of_le (hx n hn) h

theorem not_avoids_next (s : NameSupply) : ¬ s.Avoids s.next.1 := fun h =>
  Nat.lt_irrefl _ (h s.issued rfl)

/-- The names issued on the way from one state of the supply to another, in order. -/
def taken (s s' : NameSupply) : List String :=
  (List.range' s.issued (s'.issued - s.issued)).map nameOf

@[simp] theorem taken_self (s : NameSupply) : s.taken s = [] := by
  simp [taken]

theorem taken_next {s s' : NameSupply} (h : s.next.2.issued ≤ s'.issued) :
    s.taken s' = s.next.1 :: s.next.2.taken s' := by
  have hlen : s'.issued - s.issued = s'.issued - (s.issued + 1) + 1 := by
    simp only [next_issued] at h
    omega
  simp [taken, hlen, List.range'_succ, next]

theorem taken_append {s s' s'' : NameSupply} (h : s.issued ≤ s'.issued)
    (h' : s'.issued ≤ s''.issued) : s.taken s' ++ s'.taken s'' = s.taken s'' := by
  have hstart : s'.issued = s.issued + 1 * (s'.issued - s.issued) := by omega
  have hlen : s''.issued - s.issued = s'.issued - s.issued + (s''.issued - s'.issued) := by omega
  unfold taken
  rw [hlen, ← List.range'_append, List.map_append, ← hstart]

theorem taken_sublist {s s' s'' : NameSupply} (h : s.issued ≤ s'.issued)
    (h' : s'.issued ≤ s''.issued) : (s'.taken s'').Sublist (s.taken s'') := by
  rw [← taken_append h h']
  exact List.sublist_append_right _ _

theorem mem_taken {s s' : NameSupply} {x : String} :
    x ∈ s.taken s' ↔ ∃ n, s.issued ≤ n ∧ n < s'.issued ∧ x = nameOf n := by
  simp only [taken, List.mem_map, List.mem_range'_1]
  constructor
  · rintro ⟨n, hn, rfl⟩
    exact ⟨n, by omega, by omega, rfl⟩
  · rintro ⟨n, hn, hn', rfl⟩
    exact ⟨n, by omega, rfl⟩

theorem issued_of_mem_taken {s s' : NameSupply} {x : String} (h : x ∈ s.taken s') :
    s'.Issued x := by
  obtain ⟨n, -, hn, rfl⟩ := mem_taken.mp h
  exact ⟨n, hn, rfl⟩

theorem not_avoids_of_mem_taken {s s' : NameSupply} {x : String} (h : x ∈ s.taken s') :
    ¬ s.Avoids x := by
  obtain ⟨n, hn, -, rfl⟩ := mem_taken.mp h
  exact fun havoids => Nat.not_lt_of_le hn (havoids n rfl)

theorem not_issued_of_mem_taken {s s' : NameSupply} {x : String} (h : x ∈ s.taken s') :
    ¬ s.Issued x := fun hissued => not_avoids_of_mem_taken h hissued.avoids

theorem nodup_taken (s s' : NameSupply) : (s.taken s').Nodup :=
  List.Nodup.map (fun _ _ => nameOf_injective) (by simp [List.nodup_range'])

end ScopedGrammar.NameSupply
