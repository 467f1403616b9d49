import Lox.Proofs.Machine.SafeSessions
import Lox.Proofs.Syntax.Targets

/-!
# Well-formed chunks

`c.Splits offset sites`: from the offset on, the code of the chunk `c` is read as the instructions
`sites`, each with its offset, one behind the other down to the last byte. A chunk is well formed
(`Chunk.WellFormed`) when its code splits from the first byte on, when what its instructions refer to is
there, and when its jumps lead to instructions among them. Every function that the compiler makes has a
well-formed chunk, the script and what is declared in it at any depth (`wellFormed_of_compile`).
-/

set_option autoImplicit false

namespace Lox

/-! ## Splitting code -/

namespace Chunk

/-- The code of a chunk, read from an offset on to its end. -/
inductive Splits (c : Chunk Value) : Nat → List (Nat × Instruction) → Prop
  | done : Splits c c.code.size []
  | cons {offset next : Nat} {i : Instruction} {sites : List (Nat × Instruction)} :
      c.decode offset = .instruction i next → Splits c next sites →
      Splits c offset ((offset, i) :: sites)

/-- A chunk whose code is made of the instructions `sites`, each of which is as it should be. -/
structure WellFormed (c : Chunk Value) (sites : List (Nat × Instruction)) : Prop where
  splits : c.Splits 0 sites
  covers : ∀ offset < c.code.size, ∃! s, s ∈ sites ∧ s.1 ≤ offset ∧ offset < s.1 + s.2.size
  ends : [⟨.pushNil, 0⟩, ⟨.ret, 0⟩] <:+ sites.map Prod.snd
  constant : ∀ s ∈ sites, s.2.op = .constant → s.2.operand < c.constants.size
  name : ∀ s ∈ sites, s.2.op ∈ [.getGlobal, .defineGlobal, .setGlobal] →
    ∃ text : Str, c.constants[s.2.operand]? = some (.object (.string text))
  jump : ∀ s ∈ sites, s.2.op ∈ [.jump, .jumpIfFalse, .loop] →
    ∃ t ∈ sites, (t.1 : Int) = target s.2 (s.1 + s.2.size) ∧ (s.2.op = .loop → t.1 ≤ s.1)
  constants : c.constants.size ≤ 256
  lines : c.lines.size = c.code.size

variable {c : Chunk Value} {offset : Nat} {sites : List (Nat × Instruction)}

/-- The next instruction stands directly behind. -/
theorem next_of_decode {i : Instruction} {next : Nat} (h : c.decode offset = .instruction i next) :
    next = offset + i.size := by
  unfold decode at h
  split at h
  · cases h
  · split at h
    · cases h
    · split at h
      · rename_i hSize
        cases h
        simp [Instruction.size, hSize]
      · rename_i hSize
        split at h
        · cases h
          simp only [Instruction.size, hSize]
        · cases h
      · rename_i hZero hOne
        have hSize := Opcode.operandSize_eq_two hZero hOne
        split at h
        · cases h
          simp only [Instruction.size, hSize]
        · cases h

theorem Splits.le (h : c.Splits offset sites) {s : Nat × Instruction} (hs : s ∈ sites) : offset ≤ s.1 := by
  induction h with
  | done => cases hs
  | cons hDecode _ ih =>
    rcases List.mem_cons.1 hs with rfl | hs
    · exact Nat.le_refl _
    · have hNext := next_of_decode hDecode
      have hLe := ih hs
      omega

/-- Code is read in one way. -/
theorem Splits.unique (h : c.Splits offset sites) {sites' : List (Nat × Instruction)}
    (h' : c.Splits offset sites') : sites = sites' := by
  have hEnd : c.decode c.code.size = .outside := by simp [decode]
  induction h generalizing sites' with
  | done =>
    generalize hSize : c.code.size = size at h'
    cases h' with
    | done => rfl
    | cons hDecode _ =>
      rw [← hSize, hEnd] at hDecode
      cases hDecode
  | @cons offset next i sites hDecode _ ih =>
    cases h' with
    | done =>
      rw [hEnd] at hDecode
      cases hDecode
    | cons hDecode' hRest' =>
      cases hDecode.symm.trans hDecode'
      rw [ih hRest']

/-- Each byte belongs to one of the instructions. -/
theorem Splits.covers (h : c.Splits offset sites) {k : Nat} (hk : offset ≤ k) (hSize : k < c.code.size) :
    ∃! s, s ∈ sites ∧ s.1 ≤ k ∧ k < s.1 + s.2.size := by
  induction h with
  | done => omega
  | @cons offset next i sites hDecode hRest ih =>
    have hNext := next_of_decode hDecode
    by_cases hFirst : k < next
    · refine ⟨(offset, i), ⟨List.mem_cons_self, hk, hNext ▸ hFirst⟩, ?_⟩
      intro s ⟨hs, hLe, _⟩
      rcases List.mem_cons.1 hs with rfl | hs
      · rfl
      · have hBehind := hRest.le hs
        omega
    · obtain ⟨s, ⟨hs, hLe, hLt⟩, hUnique⟩ := ih (by omega)
      refine ⟨s, ⟨List.mem_cons_of_mem _ hs, hLe, hLt⟩, ?_⟩
      intro t ⟨ht, htLe, htLt⟩
      rcases List.mem_cons.1 ht with rfl | ht
      · simp only at htLt
        omega
      · exact hUnique t ⟨ht, htLe, htLt⟩

end Chunk

/-! ## The instructions of code -/

namespace Code

/-- The instructions of code that stands at an offset. -/
def sites : Nat → Code → List (Nat × Instruction)
  | _, [] => []
  | ip, x :: c => (ip, x.1) :: sites (ip + x.1.size) c

theorem sites_append (ip : Nat) (c₁ c₂ : Code) :
    (c₁ ++ c₂).sites ip = c₁.sites ip ++ c₂.sites (ip + c₁.size) := by
  induction c₁ generalizing ip with
  | nil => rfl
  | cons x c ih => simp only [List.cons_append, sites, ih, size_cons, Nat.add_assoc]

theorem map_snd_sites (ip : Nat) (c : Code) : (c.sites ip).map Prod.snd = c.map Prod.fst := by
  induction c generalizing ip with
  | nil => rfl
  | cons x c ih => simp only [sites, List.map_cons, ih]

theorem At.mem_sites {whole : Code} {ip : Nat} {x : Instruction × Nat} (h : whole.At ip [x]) :
    (ip, x.1) ∈ whole.sites 0 := by
  obtain ⟨before, behind, rfl, rfl⟩ := h
  simp [sites_append, sites]

end Code

theorem Body.SoundFrom.site {b : Body} {ip : Nat} {c : Code} (h : b.SoundFrom ip c)
    {s : Nat × Instruction} (hs : s ∈ c.sites ip) : b.Sound s.1 s.2 := by
  induction c generalizing ip with
  | nil => cases hs
  | cons x c ih =>
    rcases List.mem_cons.1 hs with rfl | hs
    · exact h.1
    · exact ih h.2 hs

namespace Body.Sound

variable {b : Body} {ip : Nat} {i : Instruction}

theorem names (h : b.Sound ip i) (hOp : i.op ∈ [.getGlobal, .defineGlobal, .setGlobal]) :
    ∃ name, b.pool[i.operand]? = some (.string name) := by
  have hRefers := h.refers
  simp only [List.mem_cons, List.not_mem_nil, or_false] at hOp
  rcases hOp with hOp | hOp | hOp
  all_goals simpa only [Instruction.Refers, hOp] using hRefers

/-- Where a jump leads is the start of an instruction. -/
theorem jumps (h : b.Sound ip i) (hOp : i.op ∈ [.jump, .jumpIfFalse, .loop]) :
    ∃ t : Nat, b.code.Starts t ∧ (t : Int) = Chunk.target i (ip + i.size) ∧ (i.op = .loop → t ≤ ip) := by
  obtain ⟨op, n⟩ := i
  have hTarget := h.target
  simp only [List.mem_cons, List.not_mem_nil, or_false] at hOp
  rcases hOp with rfl | rfl | rfl
  · exact ⟨_, hTarget, rfl, nofun⟩
  · exact ⟨_, hTarget, rfl, nofun⟩
  · obtain ⟨hOver, hLe, hStarts⟩ := hTarget
    refine ⟨_, hStarts, ?_, fun _ => ?_⟩
    · simp only [Chunk.target, Instruction.size, Opcode.operandSize, if_true] at hOver hLe ⊢
      omega
    · simp only at hOver ⊢
      omega

end Body.Sound

/-- The code of a chunk splits into the instructions that were written. -/
theorem Chunk.splits_sites {c : Chunk Value} (before : Code) {code : Code}
    (hWhole : c.code.toList = (before ++ code).bytes) {b : Body} (hs : b.SoundFrom before.size code) :
    c.Splits before.size (code.sites before.size) := by
  induction code generalizing before with
  | nil =>
    have hSize : c.code.size = before.size := by
      rw [← Array.length_toList, hWhole, List.append_nil, Code.length_bytes]
    exact hSize ▸ .done
  | cons x code ih =>
    obtain ⟨⟨op, n⟩, line⟩ := x
    obtain ⟨hFirst, hRest⟩ := hs
    have hHas : c.Has before.size (.one op n line) := .of_at hWhole ⟨before, code, by simp [Code.one], rfl⟩
    refine .cons (hHas.decode hFirst.fits) ?_
    have hBefore : (before ++ .one op n line).size = before.size + (1 + op.operandSize) := by
      simp
    have hSplits := ih (before ++ .one op n line) (by simpa [Code.one] using hWhole)
    rw [hBefore] at hSplits
    exact hSplits hRest

/-! ## Compiled functions -/

namespace World.Compiled

variable {w : World} {f : Fn} {r : Routine}

theorem size_constants (hc : w.Compiled f r) : f.chunk.constants.size = r.pool.length := by
  obtain ⟨-, -, -, -, -, -, hAll, -⟩ := hc
  rw [← Array.length_toList, hAll.length_eq]

theorem wellFormed (hc : w.Compiled f r) (hp : r.Proper) (hl : r.Legal) :
    f.chunk.WellFormed (r.code.sites 0) := by
  have hSound := hl.sound hp
  have hSplits : f.chunk.Splits 0 (r.code.sites 0) := by
    obtain ⟨-, -, -, -, hCode, -, -⟩ := hc
    exact Chunk.splits_sites [] hCode hSound
  have hMem {ip : Nat} (hs : hl.whole.code.Starts ip) : ∃ t ∈ r.code.sites 0, t.1 = ip := by
    obtain ⟨x, hAt⟩ := hs
    exact ⟨_, hAt.mem_sites, rfl⟩
  refine ⟨hSplits, fun _ => hSplits.covers (Nat.zero_le _), ?_, ?_, ?_, ?_, ?_, ?_⟩
  · rw [Code.map_snd_sites, Routine.code, List.append_assoc, List.map_append]
    exact List.suffix_append ..
  · intro s hs hOp
    have hRefers := (hSound.site hs).refers
    simp only [Instruction.Refers, hOp] at hRefers
    rwa [hc.size_constants]
  · intro s hs hOp
    obtain ⟨name, hi⟩ := (hSound.site hs).names hOp
    obtain ⟨v, hv, hr⟩ := hc.constant hi
    cases hr with
    | string => exact ⟨_, hv⟩
  · intro s hs hOp
    obtain ⟨target, hStarts, hEq, hBack⟩ := (hSound.site hs).jumps hOp
    obtain ⟨t, ht, rfl⟩ := hMem hStarts
    exact ⟨t, ht, hEq, hBack⟩
  · exact hc.size_constants ▸ hl.constants
  · obtain ⟨-, -, -, -, hCode, hLines, -⟩ := hc
    rw [← Array.length_toList, ← Array.length_toList, hCode, hLines, Code.length_bytes, Code.length_lines]

end World.Compiled

/-- Every function that the compiler makes is well formed: the script, and what is declared in it at any
depth. -/
theorem wellFormed_of_compile {source : String} {heap : Heap} {f g : Fn} (hh : heap.Reachable)
    (h : (compile source heap).1 = .ok f) (hg : g.Among [f]) :
    (∃ sites, g.chunk.WellFormed sites) ∧ g.arity ≤ 255 := by
  have hCompile : compile source heap = (.ok f, (compile source heap).2) := by rw [← h]
  have hScript : ∀ f' ∈ [f], f'.Sound (compile source heap).2 := by
    intro f' hMem
    obtain rfl := List.mem_singleton.1 hMem
    exact (sound_of_compile hh.wf hCompile).1
  obtain ⟨w, r, -, hc, hp, hl, -⟩ := hg.sound hScript
  refine ⟨⟨_, hc.wellFormed hp hl⟩, ?_⟩
  obtain ⟨-, -, hArity, -⟩ := hc
  exact hArity ▸ hl.parameters

/-- A function with both ways back of a loop, and a jump that no call comes to because it stands behind a
return. -/
theorem wellFormed_of_compile_loop :
    let source := "fun f(n) { for (;; n = n - 1) { if (n == g or n < 0) return n; } } var g = f(3);"
    ∃ f g : Fn, Heap.Reachable {} ∧ (compile source {}).1 = .ok f ∧ g.Among [f] ∧
      g.chunk.decode 42 = .instruction ⟨.loop, 42⟩ 45 ∧ (∃ sites, g.chunk.WellFormed sites) ∧
      g.arity ≤ 255 := by
  intro source
  have hLoop : ((compile source {}).1.toOption.bind fun f => f.chunk.constants[1]?.bind fun v =>
      v.asFunction?.map fun g => g.chunk.decode 42) = some (.instruction ⟨.loop, 42⟩ 45) := by
    decide +kernel
  obtain ⟨f, hf, hLoop⟩ := Option.bind_eq_some_iff.1 hLoop
  obtain ⟨v, hv, hLoop⟩ := Option.bind_eq_some_iff.1 hLoop
  obtain ⟨g, hg, hDecode⟩ := Option.map_eq_some_iff.1 hLoop
  obtain rfl := Value.eq_of_asFunction? hg
  have hAmong : g.Among [f] := .of_constant hv
  have hCompile : (compile source {}).1 = .ok f := by
    cases hResult : (compile source {}).1 with
    | ok f' =>
      rw [hResult] at hf
      cases hf
      rfl
    | error problems =>
      rw [hResult] at hf
      cases hf
  exact ⟨f, g, .new, hCompile, hAmong, hDecode, wellFormed_of_compile .new hCompile hAmong⟩

end Lox
