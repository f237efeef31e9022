import AtomicSim.Lib.PartialMap
import AtomicSim.Lib.Related

namespace AtomicSim

-- The last of those with one name is the one that the name stands for.

namespace Numbering

variable {α κ : Type*} [DecidableEq κ] (name : α → κ)

def table (l : List α) : List (κ × ℕ) := (l.zipIdx.map fun e => (name e.1, e.2)).reverse

def number (l : List α) (k : κ) : Option ℕ := (table name l).lookup k

variable {name} {l : List α} {k : κ} {i : ℕ} {a : α}

theorem exists_of_number (h : number name l k = some i) : ∃ a, l[i]? = some a ∧ name a = k := by
  obtain ⟨⟨a, j⟩, ha, heq⟩ := List.mem_map.mp (List.mem_reverse.mp (lookup_mem h))
  cases heq
  exact ⟨a, List.mem_zipIdx_iff_getElem?.mp ha, rfl⟩

theorem number_injective (l : List α) : PartialMap.Injective (number name l) := by
  intro k k' i h h'
  obtain ⟨a, ha, rfl⟩ := exists_of_number h
  obtain ⟨a', ha', rfl⟩ := exists_of_number h'
  cases ha.symm.trans ha'
  rfl

theorem number_of_getElem? (hn : (l.map name).Nodup) (h : l[i]? = some a) :
    number name l (name a) = some i := by
  have hmem : (name a, i) ∈ table name l :=
    List.mem_reverse.mpr (List.mem_map.mpr ⟨(a, i), List.mem_zipIdx_iff_getElem?.mpr h, rfl⟩)
  obtain ⟨j, hj⟩ := Option.isSome_iff_exists.mp (lookup_isSome hmem)
  obtain ⟨b, hb, hname⟩ := exists_of_number hj
  have hget : (l.map name)[i]? = (l.map name)[j]? := by
    rw [List.getElem?_map, List.getElem?_map, h, hb, Option.map_some, Option.map_some, hname]
  have hlt : i < (l.map name).length := by
    rw [List.length_map]
    exact (List.getElem?_eq_some_iff.mp h).1
  rw [number, hj, (List.getElem?_inj hlt hn).mp hget]

theorem find?_name (hn : (l.map name).Nodup) (ha : a ∈ l) :
    (l.find? fun b => name b = name a) = some a := by
  cases hfind : l.find? fun b => name b = name a with
  | none => exact absurd (decide_eq_true rfl) (List.find?_eq_none.mp hfind a ha)
  | some b =>
    have hname : name b = name a := by simpa using List.find?_some hfind
    rw [List.inj_on_of_nodup_map hn (List.mem_of_find?_eq_some hfind) ha hname]

end Numbering
end AtomicSim
