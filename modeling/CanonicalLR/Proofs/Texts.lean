import CanonicalLR.Text
import CanonicalLR.Proofs.Ownership

/-!
Whatever is made of symbols of the grammar has a text: strings, rules, the items that
the rules allow and what is put together of them.
-/
namespace CanonicalLR

variable {V : Type} {g : Grammar V}

theorem exists_mapM {α β : Type} {f : α → Option β} {l : List α}
    (each : ∀ a ∈ l, ∃ b, f a = some b) : ∃ m, l.mapM f = some m := by
  induction l with
  | nil => exact ⟨[], rfl⟩
  | cons a l ih =>
    obtain ⟨here, rest⟩ := List.forall_mem_cons.mp each
    obtain ⟨b, hb⟩ := here
    obtain ⟨m, hm⟩ := ih rest
    exact ⟨b :: m, by simp [hb, hm]⟩

namespace SymbolTable

variable {table : SymbolTable}

theorem exists_name? {x : Symbol} (owned : table.owns x = true) :
    ∃ name, table.name? x = some name := by
  rw [← isSome_name?] at owned
  exact Option.isSome_iff_exists.mp owned

theorem exists_names? {symbols : List Symbol} (owned : ∀ x ∈ symbols, table.owns x = true) :
    ∃ names, table.names? symbols = some names :=
  exists_mapM fun x hx => exists_name? (owned x hx)

theorem find?_eq_map (name : String) : table.find? name =
    (table.declarations.zipIdx.find? fun e => e.1.name == name).map fun e =>
      table.handle e.1.kind e.2 := rfl

/-- Names are distinct, so the name of a symbol leads back to it. -/
theorem find?_of_name? (distinct : (table.declarations.map Declaration.name).Nodup) {x : Symbol}
    {name : String} (named : table.name? x = some name) : table.find? name = some x := by
  have owned : table.owns x = true := by rw [← isSome_name?, named]; rfl
  obtain ⟨d, hd, same⟩ := owns_iff_declared.mp owned
  rw [name?, if_pos owned, hd, Option.map_some, Option.some.injEq] at named
  have mem : (d, x.index) ∈ table.declarations.zipIdx := List.mem_zipIdx_iff_getElem?.mpr hd
  obtain ⟨⟨d', i⟩, found⟩ :
      ∃ entry, table.declarations.zipIdx.find? (fun e => e.1.name == name) = some entry :=
    Option.isSome_iff_exists.mp (List.find?_isSome.mpr ⟨_, mem, by simp [named]⟩)
  have hd' := List.mem_zipIdx_iff_getElem?.mp (List.mem_of_find?_eq_some found)
  have named' : d'.name = name := by simpa using List.find?_some found
  have place : i = x.index := by
    have bound : i < (table.declarations.map Declaration.name).length := by
      rw [List.length_map]
      exact (List.getElem?_eq_some_iff.mp hd').1
    refine (List.getElem?_inj bound distinct).mp ?_
    rw [List.getElem?_map, List.getElem?_map, hd', hd, Option.map_some, Option.map_some, named,
      named']
  rw [place, hd] at hd'
  cases hd'
  rw [find?_eq_map, found, Option.map_some, place]
  exact congrArg some same

end SymbolTable

section

variable (wf : g.WellFormed) (heads : ∀ r ∈ g.rules, g.symbols.owns (.nonTerminal r.head) = true)
include wf heads

theorem Rule.exists_text? {r : Rule V} (mem : r ∈ g.rules) :
    ∃ text, r.text? g.symbols = some text := by
  obtain ⟨body, hb⟩ := SymbolTable.exists_names? (wf.body_owned r mem)
  obtain ⟨head, hh⟩ := SymbolTable.exists_name? (heads r mem)
  exact ⟨_, by rw [Rule.text?, hb, hh]; rfl⟩

theorem Item.exists_text? {i : Item} (hi : i ∈ g.items) : ∃ text, i.text? g = some text := by
  obtain ⟨r, mem, same, _⟩ := Grammar.mem_items.mp hi
  have found := wf.rule?_of_mem mem
  rw [← same] at found
  obtain ⟨body, hb⟩ := SymbolTable.exists_names? (wf.body_owned r mem)
  obtain ⟨head, hh⟩ := SymbolTable.exists_name? (heads r mem)
  obtain ⟨lookahead, hl⟩ := SymbolTable.exists_name? (wf.lookahead_owned hi)
  rw [Item.text?, found]
  simp only [Option.bind_eq_bind, Option.bind_some, hb, hh, hl]
  exact ⟨_, rfl⟩

theorem ItemSet.exists_text? {s : ItemSet} (inside : ∀ i ∈ s, i ∈ g.items) :
    ∃ text, s.text? g = some text := by
  obtain ⟨texts, shown⟩ := exists_mapM fun i hi => Item.exists_text? wf heads (inside i hi)
  exact ⟨_, by rw [ItemSet.text?, shown]; rfl⟩

theorem Candidate.exists_text? {c : Candidate} (hi : c.item ∈ g.items) :
    ∃ text, c.text? g = some text := by
  obtain ⟨item, shown⟩ := Item.exists_text? wf heads hi
  exact ⟨_, by rw [Candidate.text?, shown]; rfl⟩

theorem Ambiguity.exists_message? {a : Ambiguity}
    (owned : g.symbols.owns (.terminal a.terminal) = true)
    (inside : ∀ c ∈ a.candidates, c.item ∈ g.items) : ∃ text, a.message? g = some text := by
  obtain ⟨terminal, ht⟩ := SymbolTable.exists_name? owned
  obtain ⟨texts, shown⟩ := exists_mapM fun c hc => Candidate.exists_text? wf heads (inside c hc)
  exact ⟨_, by rw [Ambiguity.message?, ht, shown]; rfl⟩

end

end CanonicalLR
