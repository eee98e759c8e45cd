import Mathlib

/-!
# Incremental scanners

A scanner looks at the front of an input and either takes one item off it,
asks for more input, or halts for good.  Taking an item must shorten the input,
and neither a taken item nor a halt may change when more input arrives.  Under
these laws the items do not depend on how the input was cut into chunks.
-/

namespace LuaEngine.System

universe u v

inductive Found (Symbol : Type u) (Item : Type v) where
  /-- Nothing can be said before more input arrives. -/
  | more
  /-- The front of the input is invalid, whatever follows. -/
  | halt
  | item (value : Item) (rest : List Symbol)

/-- A scanner carries the laws that make it insensitive to chunking. -/
structure Scanner (Symbol : Type u) (Item : Type v) where
  find : List Symbol → Found Symbol Item
  find_nil : find [] = .more
  shortens : ∀ {input value rest}, find input = .item value rest →
    rest.length < input.length
  item_append : ∀ {input value rest} (later : List Symbol),
    find input = .item value rest →
      find (input ++ later) = .item value (rest ++ later)
  halt_append : ∀ {input} (later : List Symbol),
    find input = .halt → find (input ++ later) = .halt

/-- The outcome of scanning: the items in order, the input left, and whether
the scanner halted in front of it. -/
@[ext]
structure Scanned (Symbol : Type u) (Item : Type v) where
  items : List Item
  residue : List Symbol
  halted : Bool

namespace Scanner

variable {Symbol : Type u} {Item : Type v} (scanner : Scanner Symbol Item)

def scan (input : List Symbol) : Scanned Symbol Item :=
  match _found : scanner.find input with
  | .more => ⟨[], input, false⟩
  | .halt => ⟨[], input, true⟩
  | .item value rest =>
      let later := scan rest
      ⟨value :: later.items, later.residue, later.halted⟩
termination_by input.length
decreasing_by exact scanner.shortens _found

theorem scan_more {input : List Symbol} (found : scanner.find input = .more) :
    scanner.scan input = ⟨[], input, false⟩ := by
  unfold scan
  split <;> simp_all

theorem scan_halt {input : List Symbol} (found : scanner.find input = .halt) :
    scanner.scan input = ⟨[], input, true⟩ := by
  unfold scan
  split <;> simp_all

theorem scan_item {input rest : List Symbol} {value : Item}
    (found : scanner.find input = .item value rest) :
    scanner.scan input =
      ⟨value :: (scanner.scan rest).items, (scanner.scan rest).residue,
        (scanner.scan rest).halted⟩ := by
  rw [scan]
  split <;> simp_all

/-- Induction along the items a scanner takes off an input. -/
theorem scan_induction {motive : List Symbol → Prop}
    (more : ∀ input, scanner.find input = .more → motive input)
    (halt : ∀ input, scanner.find input = .halt → motive input)
    (item : ∀ input value rest, scanner.find input = .item value rest →
      motive rest → motive input)
    (input : List Symbol) : motive input := by
  induction input using scan.induct scanner with
  | case1 input found => exact more input found
  | case2 input found => exact halt input found
  | case3 input value rest found inductionHypothesis =>
      exact item input value rest found inductionHypothesis

/-- The residue of a scan holds no further item: the scanner is waiting for
input there, or it has halted. -/
theorem find_residue (input : List Symbol) :
    scanner.find (scanner.scan input).residue = .more ∧
        (scanner.scan input).halted = false ∨
      scanner.find (scanner.scan input).residue = .halt ∧
        (scanner.scan input).halted = true := by
  induction input using scanner.scan_induction with
  | more input found => simp [scanner.scan_more found, found]
  | halt input found => simp [scanner.scan_halt found, found]
  | item input value rest found inductionHypothesis =>
      rw [scanner.scan_item found]
      exact inductionHypothesis

theorem scan_append (input later : List Symbol) :
    scanner.scan (input ++ later) =
      ⟨(scanner.scan input).items ++
          (scanner.scan ((scanner.scan input).residue ++ later)).items,
        (scanner.scan ((scanner.scan input).residue ++ later)).residue,
        (scanner.scan ((scanner.scan input).residue ++ later)).halted⟩ := by
  induction input using scanner.scan_induction with
  | more input found => simp [scanner.scan_more found]
  | halt input found => simp [scanner.scan_halt found]
  | item input value rest found inductionHypothesis =>
      rw [scanner.scan_item (scanner.item_append later found),
        scanner.scan_item found, inductionHypothesis]
      rfl

/-- More input only adds items. -/
theorem items_prefix (input later : List Symbol) :
    (scanner.scan input).items <+: (scanner.scan (input ++ later)).items := by
  rw [scanner.scan_append]
  exact List.prefix_append _ _

theorem scan_append_of_halted {input : List Symbol} (later : List Symbol)
    (halted : (scanner.scan input).halted = true) :
    scanner.scan ((scanner.scan input).residue ++ later) =
      ⟨[], (scanner.scan input).residue ++ later, true⟩ := by
  rcases scanner.find_residue input with ⟨_, running⟩ | ⟨found, _⟩
  · rw [halted] at running
    contradiction
  · exact scanner.scan_halt (scanner.halt_append later found)

/-! ## Chunked input -/

def feed (before : Scanned Symbol Item) (chunk : List Symbol) :
    Scanned Symbol Item :=
  let after := scanner.scan (before.residue ++ chunk)
  ⟨before.items ++ after.items, after.residue, before.halted || after.halted⟩

def fresh : Scanned Symbol Item := ⟨[], [], false⟩

theorem scan_nil : scanner.scan [] = fresh :=
  scanner.scan_more scanner.find_nil

/-- Feeding a chunk to a scan is scanning the input with the chunk. -/
theorem feed_scan (input chunk : List Symbol) :
    scanner.feed (scanner.scan input) chunk = scanner.scan (input ++ chunk) := by
  rw [scanner.scan_append]
  unfold feed
  cases halted : (scanner.scan input).halted with
  | false => simp
  | true => simp [scanner.scan_append_of_halted chunk halted]

theorem foldl_feed (input : List Symbol) (chunks : List (List Symbol)) :
    chunks.foldl scanner.feed (scanner.scan input) =
      scanner.scan (input ++ chunks.flatten) := by
  induction chunks generalizing input with
  | nil => simp
  | cons chunk chunks inductionHypothesis =>
      rw [List.foldl_cons, scanner.feed_scan, inductionHypothesis,
        List.flatten_cons, List.append_assoc]

end Scanner

/-! ## Scanners that undo an encoder -/

/-- An encoder whose items a scanner takes off again, and a class of items the
scanner halts on instead. -/
structure Framing (Symbol : Type u) (Item : Type v) extends Scanner Symbol Item where
  encode : Item → List Symbol
  Admits : Item → Prop
  Rejects : Item → Prop
  find_encode : ∀ {value} (rest : List Symbol), Admits value →
    find (encode value ++ rest) = .item value rest
  halt_encode : ∀ {value} (rest : List Symbol), Rejects value →
    find (encode value ++ rest) = .halt
  eq_encode : ∀ {input value rest}, find input = .item value rest →
    Admits value ∧ input = encode value ++ rest

namespace Framing

variable {Symbol : Type u} {Item : Type v} (framing : Framing Symbol Item)

theorem scan_encode_append (values : List Item) (rest : List Symbol)
    (admitted : ∀ value ∈ values, framing.Admits value) :
    framing.scan (values.flatMap framing.encode ++ rest) =
      ⟨values ++ (framing.scan rest).items, (framing.scan rest).residue,
        (framing.scan rest).halted⟩ := by
  induction values with
  | nil => simp
  | cons value values inductionHypothesis =>
      have found := framing.find_encode (values.flatMap framing.encode ++ rest)
        (admitted value (by simp))
      rw [List.flatMap_cons, List.append_assoc, framing.scan_item found,
        inductionHypothesis fun other membership =>
          admitted other (List.mem_cons_of_mem value membership)]
      simp

theorem not_admits_of_rejects {value : Item} (rejected : framing.Rejects value) :
    ¬framing.Admits value := by
  intro admitted
  have halted := framing.halt_encode [] rejected
  rw [framing.find_encode [] admitted] at halted
  contradiction

/-- Of a sequence of encoded items, exactly those before the first rejected one
are scanned, and the scanner halts exactly when there is a rejected one. -/
theorem scan_encode [DecidablePred framing.Admits] (values : List Item)
    (settled : ∀ value ∈ values, framing.Admits value ∨ framing.Rejects value) :
    (framing.scan (values.flatMap framing.encode)).items =
        values.takeWhile (fun value => decide (framing.Admits value)) ∧
      ((framing.scan (values.flatMap framing.encode)).halted = true ↔
        ∃ value ∈ values, framing.Rejects value) := by
  induction values with
  | nil => simp [framing.scan_nil, Scanner.fresh]
  | cons value values inductionHypothesis =>
      rw [List.flatMap_cons]
      rcases settled value (by simp) with admitted | rejected
      · have later := inductionHypothesis fun other membership =>
          settled other (List.mem_cons_of_mem value membership)
        have accepted : ¬framing.Rejects value := fun rejected =>
          framing.not_admits_of_rejects rejected admitted
        rw [framing.scan_item (framing.find_encode _ admitted)]
        simpa [admitted, accepted] using later
      · have refused := framing.not_admits_of_rejects rejected
        rw [framing.scan_halt (framing.halt_encode _ rejected)]
        simp [refused, rejected]

/-- Scanning loses nothing: the items encoded again, then the residue, are the
input. -/
theorem encode_scan (input : List Symbol) :
    (framing.scan input).items.flatMap framing.encode ++
      (framing.scan input).residue = input := by
  induction input using framing.scan_induction with
  | more input found => simp [framing.scan_more found]
  | halt input found => simp [framing.scan_halt found]
  | item input value rest found inductionHypothesis =>
      rw [framing.scan_item found, (framing.eq_encode found).2]
      simpa using inductionHypothesis

theorem admits_of_mem_scan {input : List Symbol} {value : Item}
    (membership : value ∈ (framing.scan input).items) : framing.Admits value := by
  induction input using framing.scan_induction with
  | more input found => simp [framing.scan_more found] at membership
  | halt input found => simp [framing.scan_halt found] at membership
  | item input head rest found inductionHypothesis =>
      rw [framing.scan_item found] at membership
      rcases List.mem_cons.mp membership with equality | later
      · rw [equality]
        exact (framing.eq_encode found).1
      · exact inductionHypothesis later

end Framing

end LuaEngine.System
