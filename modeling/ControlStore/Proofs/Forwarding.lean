import ControlStore.Proofs.Blocking
import ControlStore.Proofs.CombDecoder
import ControlStore.Proofs.RoundTrip

/-! # Forwarded signals in the combinational decoder

The combinational decoder stores into the targets field by field, and into the targets of a field in
order of declaration (`Design.driveOrder`), whatever they forward.  Its stores take effect at once.  So
a target ends with what the signal forwarded to it ends with if the signal is no target, or is a target
that was stored before; a signal that is stored only afterwards has passed on what it carried before
the execution (`Design.replay_outputs`). -/

namespace ControlStore

open NatMap (tabulate)
open ControlWord StepFlow

namespace Design

/-- The targets in the order in which the decoder stores into them. -/
def driveOrder (d : Design) : List SignalId := d.fields.flatMap fun f => (NatSet.ofList f.table.targets).keys

/-- The decoder stores into `t` and later into `source`. -/
def DrivenAfter (d : Design) (t source : SignalId) : Prop := [t, source].Sublist d.driveOrder

variable {m : FlowMatrix} {d : Design}

/-! ### The body of the decoder -/

theorem direct_contentStmts (wire : Wire) (contents : Contents) :
    ∀ s ∈ d.contentStmts wire contents, s.Direct := by
  intro s hs
  obtain ⟨e, -, rfl⟩ := List.mem_map.mp hs
  exact .store _ _

theorem direct_combStmts (cw : LocalId) (f : MicroField) : ∀ s ∈ d.combStmts cw f, s.Direct := by
  unfold combStmts
  split
  · exact direct_contentStmts _ _
  · intro s hs
    rw [List.mem_singleton.mp hs]
    refine .switch rfl ?_ ?_
    · intro c hc
      obtain ⟨e, -, rfl⟩ := List.mem_map.mp hc
      exact direct_contentStmts _ _
    · intro body hbody s hs
      obtain rfl : d.unknownStmts f = body := Option.some.inj hbody
      obtain ⟨t, -, rfl⟩ := List.mem_map.mp hs
      exact .store _ _

/-- Executing the decoder replays the stores that the control word stands for. -/
theorem execAll_decoder (h : LaysOut m d) {cw : LocalId} {prior : Valuation} {b : Bits}
    (hcw : prior (.inner cw) = .bits b) :
    execAll prior (d.fields.flatMap (d.combStmts cw)) = prior.replay (d.outputs ⟨d.width, b.value⟩) := by
  have hdirect : ∀ s ∈ d.fields.flatMap (d.combStmts cw), s.Direct := by
    intro s hs
    obtain ⟨f, -, hs⟩ := List.mem_flatMap.mp hs
    exact direct_combStmts cw f s hs
  have hregs : prior.registers cw = .value b := WireLevel.datum_eq_value_iff.mpr hcw
  rw [execAll_eq_replay hdirect, storesOf_decoder h hregs]

/-! ### Stores for a control word that decodes -/

/-- A word whose selectors all stand for the same contents drives these in the order of the fields. -/
theorem outputs_eq_map_driveOrder (h : LaysOut m d) {word : ControlWord} {c : SignalId → Content}
    (hc : c ∈ m.neutralContent :: m.stepContents)
    (hsymbols : ∀ f ∈ d.fields, word.field f.offset f.width = f.table.codeOf c) :
    d.outputs word = d.driveOrder.map fun t => (.design t, .ofAssignment (d.drive word t (c t))) := by
  unfold outputs driveOrder
  rw [List.map_flatMap]
  apply List.flatMap_congr
  intro f hf
  have hget : f.table.table.values[word.field f.offset f.width]? = some (tabulate c f.table.targets) := by
    rw [hsymbols f hf]
    exact (h.numbers f hf).values_codeOf hc
  rw [outputs_of_getElem? hget, NatMap.entries_tabulate_keys, List.map_map]
  rfl

theorem mem_driveOrder_iff (h : LaysOut m d) {t : SignalId} : t ∈ d.driveOrder ↔ t ∈ m.targets := by
  unfold driveOrder
  simp only [List.mem_flatMap, NatSet.mem_keys_ofList, mem_targets_iff h]

theorem drivenAfter_iff {t source : SignalId} :
    d.DrivenAfter t source ↔ [Wire.design t, .design source].Sublist (d.driveOrder.map .design) := by
  constructor
  · exact fun h => h.map Wire.design
  · intro h
    obtain ⟨l, hsub, hl⟩ := List.sublist_map_iff.mp h
    obtain rfl : [t, source] = l := List.map_injective_iff.mpr (fun _ _ => Wire.design.inj) hl
    exact hsub

/-- What a decoded word leaves in a target that forwards a signal. -/
theorem replay_outputs (h : LaysOut m d) {word : ControlWord} {c : SignalId → Content}
    (hc : c ∈ m.neutralContent :: m.stepContents)
    (hsymbols : ∀ f ∈ d.fields, word.field f.offset f.width = f.table.codeOf c) (prior : Valuation)
    {t source : SignalId} (ht : t ∈ m.targets) (hforward : d.drive word t (c t) = .signal source) :
    (¬ d.DrivenAfter t source →
      prior.replay (d.outputs word) (.design t) = prior.replay (d.outputs word) (.design source)) ∧
    (d.DrivenAfter t source → prior.replay (d.outputs word) (.design t) = prior (.design source)) := by
  have houtputs := outputs_eq_map_driveOrder h hc hsymbols
  have hfst : (d.outputs word).map Prod.fst = d.driveOrder.map .design := by
    rw [houtputs, List.map_map]
    rfl
  have hnd : ((d.outputs word).map Prod.fst).Nodup := by
    rw [(map_fst_outputs h word).nodup_iff]
    exact m.targets_nodup.map fun _ _ => Wire.design.inj
  have hmem : (Wire.design t, Datum.signal source) ∈ d.outputs word := by
    rw [houtputs]
    refine List.mem_map.mpr ⟨t, (mem_driveOrder_iff h).mpr ht, ?_⟩
    rw [hforward]
    rfl
  rw [drivenAfter_iff, ← hfst]
  exact Valuation.replay_signal hmem hnd prior

/-- Executing the combinational decoder on the word of a step leaves in every target that forwards a
signal what the signal carries at the end, unless the decoder stores into the signal afterwards; the
target then has what the signal carried before. -/
theorem comb_decoder_forwards {m : FlowMatrix} (hv : m.validate = .ok ())
    (hfit : m.laneBits + m.selectorBits < Width.limit) (bound : Nat) {step : Nat}
    (hstep : step < m.steps.length) :
    ∃ d report, (compute m bound).result = .ok (d, report) ∧
      ∃ flow word required, m.flow step = .ok flow ∧ d.encode step flow = .ok word ∧
        m.resolveStep step = .ok required ∧
        ∀ (M : DecoderModule) (cw : LocalId), ∃ body,
          d.addDecoder .combinational M (.inner cw) = .ok ({ d with decoderBuilt := true },
            M.addProcess (.comb (.ofBody "cwdecode" body) [.inner cw])) ∧
          ∀ (prior : Valuation) (b : Bits), prior (.inner cw) = .bits b → b.value = word.bits →
            ∀ t source, required.get? t = some (.signal source) →
              (¬ d.DrivenAfter t source →
                execAll prior body (.design t) = execAll prior body (.design source)) ∧
              (d.DrivenAfter t source → execAll prior body (.design t) = prior (.design source)) := by
  obtain ⟨d, report, hcompute, h⟩ := compute_ok hv hfit bound
  obtain ⟨flow, hflow⟩ := FlowMatrix.exists_flow hstep
  obtain ⟨word, henc⟩ := exists_encode h hv hflow
  have haccepts := (FlowMatrix.validate_eq_ok_iff.mp hv).2 flow (FlowMatrix.mem_steps_of_flow hflow)
  have hc := FlowMatrix.getElem?_stepContents hflow
  have hmem := List.mem_cons_of_mem m.neutralContent (List.mem_of_getElem? hc)
  obtain ⟨-, -, hwrites⟩ := (encode_eq_ok_iff h hc).mp henc
  refine ⟨d, report, hcompute, flow, word, _, hflow, henc, FlowMatrix.resolveStep_eq_ok hv hflow, ?_⟩
  intro M cw
  refine ⟨d.fields.flatMap (d.combStmts cw), ?_, ?_⟩
  · unfold addDecoder
    rw [h.unbuilt, addCombDecoder_eq_ok h hv M cw]
    rfl
  · intro prior b hcw hb t source hrequired
    have hwidth : word.width = d.width := width_writeAll hwrites
    have hword : (⟨d.width, b.value⟩ : ControlWord) = word := by
      rw [hb, ← hwidth]
    rw [NatMap.get?_tabulate] at hrequired
    split at hrequired
    · next ht =>
      have hdrive := (drive_eq_resolution_iff h hv hflow haccepts henc t).mpr (not_overwritten h hv hflow)
      rw [execAll_decoder h hcw, hword]
      exact replay_outputs h hmem (fun f hf => field_selector h hmem hwrites hf) prior ht
        (hdrive.trans (Option.some.inj hrequired))
    · cases hrequired

/-- In the second step of `mixed` the second target forwards the first, which is stored before it. -/
theorem comb_decoder_forwards_mixed : ∃ d report, (compute .mixed 6).result = .ok (d, report) ∧
    ∃ flow word required, FlowMatrix.mixed.flow 1 = .ok flow ∧ d.encode 1 flow = .ok word ∧
      FlowMatrix.mixed.resolveStep 1 = .ok required ∧ required.get? 1 = some (.signal 0) ∧
      ∃ body, d.addDecoder .combinational (.ofMatrix .counting .mixed) (.inner 0) =
          .ok ({ d with decoderBuilt := true },
            (DecoderModule.ofMatrix .counting .mixed).addProcess (.comb (.ofBody "cwdecode" body) [.inner 0])) ∧
        ∀ (prior : Valuation) (b : Bits), prior (.inner 0) = .bits b → b.value = word.bits →
          execAll prior body (.design 1) = execAll prior body (.design 0) := by
  obtain ⟨d, report, hcompute, flow, word, required, hflow, henc, hrequired, hdecoder⟩ :=
    comb_decoder_forwards (m := .mixed) (by decide) (by decide) 6
      (show 1 < FlowMatrix.mixed.steps.length by decide)
  have horders : (compute .mixed 6).result.map (fun r => r.1.driveOrder) = .ok [0, 1, 2] := by decide
  have hforwards : (FlowMatrix.mixed.resolveStep 1).map (fun r => r.get? 1) = .ok (some (.signal 0)) := by
    decide
  rw [hcompute] at horders
  rw [hrequired] at hforwards
  have horder : d.driveOrder = [0, 1, 2] := Except.ok.inj horders
  have hforward : required.get? 1 = some (.signal 0) := Except.ok.inj hforwards
  have hnot : ¬ d.DrivenAfter 1 0 := by
    unfold DrivenAfter
    rw [horder]
    decide
  obtain ⟨body, hbody, hfinal⟩ := hdecoder (.ofMatrix .counting .mixed) 0
  refine ⟨d, report, hcompute, flow, word, required, hflow, henc, hrequired, hforward, body, hbody, ?_⟩
  intro prior b hcw hb
  exact (hfinal prior b hcw hb 1 0 hforward).1 hnot

/-- The first target forwards the second, which is constant. -/
def chained : FlowMatrix where
  signals := [.zeroed "a" 4, .zeroed "b" 4]
  neutral := .ofList [(0, .forward 1), (1, .constant (.ofNat 5 4))]
  steps := [.empty]

/-- If all wires carry zero before, the first target ends with zero and the second one with five. -/
theorem chained_stale : chained.validate = .ok () ∧
    chained.laneBits + chained.selectorBits < Width.limit ∧
    ∃ d report flow word required body, (compute chained 6).result = .ok (d, report) ∧
      chained.flow 0 = .ok flow ∧ d.encode 0 flow = .ok word ∧ word.bits = 0 ∧
      chained.resolveStep 0 = .ok required ∧ required.get? 0 = some (.signal 1) ∧
      d.addDecoder .combinational (.ofMatrix .counting chained) (.inner 0) = .ok ({ d with decoderBuilt := true },
        (DecoderModule.ofMatrix .counting chained).addProcess (.comb (.ofBody "cwdecode" body) [.inner 0])) ∧
      execAll (fun _ => .bits (.zero 4)) body (.design 0) = .bits (.zero 4) ∧
      execAll (fun _ => .bits (.zero 4)) body (.design 1) = .bits ⟨4, 5, by decide⟩ := by
  refine ⟨by decide, by decide, ?_⟩
  exact ⟨_, _, _, _, _, _, rfl, rfl, rfl, rfl, rfl, rfl, rfl, rfl, rfl⟩

end Design

end ControlStore
