import Firebird.Jrd.TempArray

/-!
# Temporary space that cannot grow

`extend` with the ways in which it fails. A new block goes to memory while the cache has room for
it, and otherwise to a file in the first temporary directory that takes it; when none does,
`setupFile` raises, and the space stays as `extend` has left it so far.
-/
namespace Firebird.Jrd.Temp

open List

/-- What happens to a file in a temporary directory: whether it can be created, and after how many
bytes it stops growing, if it does. -/
structure Directory where
  creates : Bool
  fails : Option Nat

/-- The surroundings of a call: the memory for a new block, what the initial buffer holds before it
is written to, and the temporary directories with their names. -/
structure Env where
  memory : Option (Nat → UInt8)
  fresh : Nat → UInt8
  directories : List (Nat × Directory)

/-- A space with its initial buffer, which may outlive its block, and the directories of its
files. -/
structure Growing where
  space : TempSpace
  initialBuffer : List UInt8
  fileDirs : List Nat

def Growing.new (dynamic : Bool) : Growing := ⟨Temp.new dynamic, [], []⟩

/-- The loop of `setupFile` over the directories: the file that will grow, and what the attempts
before have left. -/
def findRoom : List (Nat × Directory) → List (List UInt8) → List Nat →
    Option Nat × List (List UInt8) × List Nat
  | [], files, dirs => (none, files, dirs)
  | (name, d) :: rest, files, dirs =>
    match dirs.idxOf? name with
    | some j =>
      match d.fails with
      | none => (some j, files, dirs)
      | some written => findRoom rest (files.modify j (· ++ List.replicate written 0)) dirs
    | none =>
      if d.creates then
        match d.fails with
        | none => (some files.length, files, dirs ++ [name])
        | some written => findRoom rest (files ++ [List.replicate written 0]) (dirs ++ [name])
      else findRoom rest files dirs

/-- The end of `extend`: a block of the size for the space, which has room for it already in its
sizes. -/
def Growing.place (g : Growing) (env : Env) (s : TempSpace) (size : Nat) : Bool × Growing :=
  match env.memory with
  | some fresh => (true, ⟨appendBlock s (.memory fresh) size g.initialBuffer, [], g.fileDirs⟩)
  | none =>
    match findRoom env.directories s.tempFiles g.fileDirs with
    | (some index, files, dirs) =>
      (true, ⟨appendBlock { s with tempFiles := files } (.file index) size g.initialBuffer, [],
        dirs⟩)
    | (none, files, dirs) =>
      (false, { g with space := { s with tempFiles := files }, fileDirs := dirs })

variable (minBlockSize alignment : Nat)

/-- `extend`; it returns false if it raises. -/
def Growing.extend (g : Growing) (env : Env) (size : Nat) : Bool × Growing :=
  let s := { g.space with logicalSize := g.space.logicalSize + size }
  if s.logicalSize > s.physicalSize then
    if s.initiallyDynamic ∧ s.logicalSize < minTempBlockSize then
      let buffer :=
        match g.initialBuffer with
        | [] => (List.range size).map env.fresh
        | _ => g.initialBuffer ++ List.replicate size 0
      (true, { g with
        space := { s with
          blocks := [⟨buffer.length, .initial buffer⟩], physicalSize := buffer.length }
        initialBuffer := buffer })
    else if g.initialBuffer ≠ [] then
      let size := fbAlign s.logicalSize minBlockSize
      g.place env { s with blocks := [], physicalSize := size } size
    else
      let size := fbAlign (s.logicalSize - s.physicalSize) minBlockSize
      g.place env { s with physicalSize := s.physicalSize + size } size
  else (true, { g with space := s })

def Growing.withSpace (g : Growing) (s : TempSpace) : Growing :=
  match s.blocks with
  | [⟨_, .initial buffer⟩] => { g with space := s, initialBuffer := buffer }
  | _ => { g with space := s }

inductive Call
  | extend (size : Nat)
  | write (offset : Nat) (data : List UInt8)
  | allocateSpace (size : Nat)
  | releaseSpace (position size : Nat)
  | allocateBatch (count minSize maxSize : Nat)

def Growing.growth (g : Growing) : Call → Option Nat
  | .extend size => some size
  | .write offset data =>
    if offset + data.length > g.space.logicalSize then
      some (offset + data.length - g.space.logicalSize)
    else none
  | .allocateSpace size =>
    if (findBest size g.space.freeSegments.items 0 none).isSome then none else some size
  | _ => none

/-- What a call does when there is nothing more to extend; `write` stops if it finds no block. -/
def Growing.finish (g : Growing) : Call → Growing
  | .extend _ => g
  | .write offset data =>
    ((write minBlockSize g.space (.file 0) offset data).map g.withSpace).getD g
  | .allocateSpace size =>
    if (findBest size g.space.freeSegments.items 0 none).isSome then
      { g with space := (allocateSpace minBlockSize g.space (.file 0) size).2 }
    else g
  | .releaseSpace position size => { g with space := releaseSpace g.space position size }
  | .allocateBatch count minSize maxSize =>
    ((allocateBatch minBlockSize alignment g.space count minSize maxSize).map
      fun r => { g with space := r.1 }).getD g

def Growing.call (g : Growing) (env : Env) (c : Call) : Bool × Growing :=
  match g.growth c with
  | none => (true, g.finish minBlockSize alignment c)
  | some size =>
    let (ok, g) := g.extend minBlockSize env size
    if ok then (true, g.finish minBlockSize alignment c) else (false, g)

/-- Some directory takes a file: one that has a file, or where one can be created, or was created in
vain by the attempts before. -/
def Room (directories : List (Nat × Directory)) (dirs : List Nat) : Prop :=
  ∃ pre name d post, directories = pre ++ (name, d) :: post ∧ d.fails = none ∧
    (name ∈ dirs ∨ d.creates = true ∨ ∃ d', (name, d') ∈ pre ∧ d'.creates = true)

/-- There is room for a call: it does not extend the space beyond its blocks, the initial buffer is
still small enough, or memory or a directory takes the new block. -/
def Growing.HasRoom (g : Growing) (env : Env) (c : Call) : Prop :=
  ∀ size, g.growth c = some size →
    g.space.logicalSize + size ≤ g.space.physicalSize ∨
    (g.space.initiallyDynamic = true ∧ g.space.logicalSize + size < minTempBlockSize) ∨
    env.memory.isSome ∨ Room env.directories g.fileDirs

structure Sizes (s : TempSpace) : Prop where
  physical : s.physicalSize = (s.blocks.map Block.size).sum
  logical : s.logicalSize ≤ s.physicalSize

/-- A call that raises leaves the sizes, the blocks and the contents of the space. -/
def Atomic (s : TempSpace) (r : Bool × Growing) : Prop :=
  r.1 = false → r.2.space.logicalSize = s.logicalSize ∧ r.2.space.physicalSize = s.physicalSize ∧
    r.2.space.blocks = s.blocks ∧ r.2.space.bytes = s.bytes

variable {name : Nat} {d : Directory} {rest : List (Nat × Directory)} {dirs dirs' : List Nat}

theorem room_congr (h : ∀ x, x ∈ dirs ↔ x ∈ dirs') (ds : List (Nat × Directory)) :
    Room ds dirs ↔ Room ds dirs' := by
  simp only [Room, h]

theorem not_room_nil (dirs : List Nat) : ¬ Room [] dirs := by
  rintro ⟨pre, name, d, post, h, -⟩
  simp at h

theorem room_cons : Room ((name, d) :: rest) dirs ↔
    (d.fails = none ∧ (name ∈ dirs ∨ d.creates = true)) ∨
      Room rest (if d.creates then dirs ++ [name] else dirs) := by
  constructor
  · rintro ⟨pre, n, e, post, heq, hfails, hcreated⟩
    cases pre with
    | nil =>
      obtain ⟨hhead, rfl⟩ := List.cons.inj heq
      cases hhead
      refine .inl ⟨hfails, ?_⟩
      rcases hcreated with hin | hcreates | ⟨d', hd', -⟩
      · exact .inl hin
      · exact .inr hcreates
      · cases hd'
    | cons x pre =>
      obtain ⟨rfl, rfl⟩ := List.cons.inj heq
      refine .inr ⟨pre, n, e, post, rfl, hfails, ?_⟩
      rcases hcreated with hin | hcreates | ⟨d', hd', hcreates⟩
      · exact .inl (by split <;> simp [hin])
      · exact .inr (.inl hcreates)
      · rcases mem_cons.1 hd' with heq | hd'
        · cases heq
          exact .inl (by simp [hcreates])
        · exact .inr (.inr ⟨d', hd', hcreates⟩)
  · rintro (⟨hfails, hcreated⟩ | ⟨pre, n, e, post, rfl, hfails, hcreated⟩)
    · refine ⟨[], name, d, rest, rfl, hfails, ?_⟩
      rcases hcreated with hin | hcreates
      · exact .inl hin
      · exact .inr (.inl hcreates)
    · refine ⟨(name, d) :: pre, n, e, post, rfl, hfails, ?_⟩
      rcases hcreated with hin | hcreates | ⟨d', hd', hcreates⟩
      · by_cases hc : d.creates = true
        · rw [if_pos hc, mem_append, mem_singleton] at hin
          rcases hin with hin | rfl
          · exact .inl hin
          · exact .inr (.inr ⟨d, mem_cons_self, hc⟩)
        · rw [if_neg hc] at hin
          exact .inl hin
      · exact .inr (.inl hcreates)
      · exact .inr (.inr ⟨d', mem_cons_of_mem _ hd', hcreates⟩)

theorem findRoom_isSome (ds : List (Nat × Directory)) (files : List (List UInt8))
    (dirs : List Nat) : (findRoom ds files dirs).1.isSome ↔ Room ds dirs := by
  induction ds generalizing files dirs with
  | nil => simp [findRoom, not_room_nil]
  | cons x rest ih =>
    obtain ⟨name, d⟩ := x
    rw [room_cons, findRoom]
    cases hidx : dirs.idxOf? name with
    | some j =>
      have hin : name ∈ dirs := by
        rw [← isSome_idxOf?, hidx]
        rfl
      have hsame : ∀ x, x ∈ dirs ↔ x ∈ if d.creates then dirs ++ [name] else dirs := by
        intro x
        split
        · rw [mem_append, mem_singleton]
          exact ⟨.inl, fun h => h.elim id fun heq => heq ▸ hin⟩
        · rfl
      cases hfails : d.fails with
      | none => simp [hin]
      | some written =>
        simp only [ih, reduceCtorEq, false_and, false_or]
        exact room_congr hsame rest
    | none =>
      have hout : name ∉ dirs := by
        rw [← isSome_idxOf?, hidx]
        simp
      cases hcreates : d.creates with
      | false => simp [hout, ih]
      | true =>
        cases hfails : d.fails with
        | none => simp
        | some written => simp [ih]

theorem findRoom_spec (ds : List (Nat × Directory)) (files : List (List UInt8)) (dirs : List Nat)
    (hlen : dirs.length = files.length) :
    (∀ i, files.getD i [] <+: (findRoom ds files dirs).2.1.getD i []) ∧
    ((findRoom ds files dirs).1 = none →
      (findRoom ds files dirs).2.2.length = (findRoom ds files dirs).2.1.length) ∧
    ∀ index size, (findRoom ds files dirs).1 = some index →
      (findRoom ds files dirs).2.2.length =
        (setupFile (findRoom ds files dirs).2.1 index size).2.length := by
  induction ds generalizing files dirs with
  | nil => exact ⟨fun i => prefix_rfl, fun _ => hlen, fun index size h => by cases h⟩
  | cons x rest ih =>
    obtain ⟨name, d⟩ := x
    rw [findRoom]
    cases hidx : dirs.idxOf? name with
    | some j =>
      have hj : j < files.length := by
        rw [← hlen]
        exact (findIdx?_eq_some_iff_getElem.1 hidx).1
      cases hfails : d.fails with
      | none =>
        refine ⟨fun i => prefix_rfl, fun h => absurd h (by simp), fun index size h => ?_⟩
        cases h
        simp [setupFile, hj, hlen]
      | some written =>
        obtain ⟨hgrow, hnone, hsome⟩ :=
          ih (files.modify j (· ++ replicate written 0)) dirs (by simpa using hlen)
        refine ⟨fun i => ?_, hnone, hsome⟩
        refine IsPrefix.trans ?_ (hgrow i)
        rw [getD_modify _ hj]
        split
        · exact prefix_append _ _
        · exact prefix_rfl
    | none =>
      cases hcreates : d.creates with
      | false => exact ih files dirs hlen
      | true =>
        cases hfails : d.fails with
        | none =>
          refine ⟨fun i => prefix_rfl, fun h => absurd h (by simp), fun index size h => ?_⟩
          cases h
          simp [setupFile, hlen]
        | some written =>
          obtain ⟨hgrow, hnone, hsome⟩ :=
            ih (files ++ [replicate written 0]) (dirs ++ [name]) (by simpa using hlen)
          refine ⟨fun i => ?_, hnone, hsome⟩
          refine IsPrefix.trans ?_ (hgrow i)
          rcases Nat.lt_or_ge i files.length with hi | hi
          · simp [getElem?_append_left hi]
          · simp [getElem?_eq_none hi]

end Firebird.Jrd.Temp
