/-
  USBMIDI9 — what the encoder sends, the receive stream takes back.

  The packets of a list of messages, with the packets of one-byte system
  messages inserted anywhere, are fed to a fresh stream of their cable.

  * `Received m g`: the group `g` of taken messages stands for the message `m`;
  * `rx_tx_roundTrip`: the taken messages, the inserted ones removed, are one
    such group for each message, every inserted message is taken where it was
    inserted, and the stream ends outside a SysEx run.
-/
import Usbmidi9.Core.Decoder
import Usbmidi9.Core.Transmit

namespace Usbmidi9

/-- The taken messages that stand for one sent message. -/
inductive Received : List UInt8 → List Message → Prop
  | message {m} : m.getD 0 0 ≠ 0xF0 → m ≠ [0xF7] → Received m [⟨m, .none⟩]
  | eox : Received [0xF7] [⟨[0xF7], .end_⟩]
  | shortRun {m} : m.getD 0 0 = 0xF0 → m.length ≤ 3 → Received m [⟨m, .none⟩]
  | longRun {m start mids end_} : m.getD 0 0 = 0xF0 → 4 ≤ m.length →
      start.sysex = .start → (∀ x ∈ mids, x.sysex = .mid) → end_.sysex = .end_ →
      (start :: (mids ++ [end_])).flatMap Message.bytes = m →
      Received m (start :: (mids ++ [end_]))

/-- The one-byte system messages that may be inserted: F6 and F8 to FF. -/
def IsOneByte (status : UInt8) : Prop := status = 0xF6 ∨ 0xF8 ≤ status

/-! ## One message -/

theorem um9TxEndCin_spec {len : ℕ} (h1 : 1 ≤ len) (h3 : len ≤ 3) :
    um9TxEndCin len < 16 ∧ len = um9CinDataLength (um9TxEndCin len) ∧
      (um9TxEndCin len = cinSysexEnd1 ∨ um9TxEndCin len = cinSysexEnd2 ∨
        um9TxEndCin len = cinSysexEnd3) := by
  interval_cases len <;> decide

section
variable {c : ℕ} (hc : c < 16)
include hc

/-- The end packet of a run. -/
theorem decode_end {last : List UInt8} (h1 : 1 ≤ last.length) (h3 : last.length ≤ 3) (b : Bool) :
    decodeStep b (.ofNibbles c (um9TxEndCin last.length) last) =
      (false, [⟨last, if !b ∧ last.getD 0 0 = 0xF0 then .none else .end_⟩]) := by
  obtain ⟨hn, hlen, hcin⟩ := um9TxEndCin_spec h1 h3
  rw [decodeStep_end b (by rwa [EventPacket.cin_ofNibbles hc hn]),
    EventPacket.payload_ofNibbles hc hn hlen]
  rfl

/-- A start or middle packet. -/
theorem decode_three (x y z : UInt8) (b : Bool) :
    decodeStep b (.ofNibbles c cinSysexStart [x, y, z]) =
      (true, [⟨[x, y, z], if b then .mid else .start⟩]) := by
  have hn : cinSysexStart < 16 := by decide
  rw [decodeStep_start b (EventPacket.cin_ofNibbles hc hn _),
    EventPacket.payload_ofNibbles hc hn rfl]

/-- The rest of a run, once inside it. -/
theorem decode_txRun {run : List UInt8} (h : run ≠ []) :
    ∃ mids end_, decoder.outs true (txRun c run) = (mids ++ [end_]).map (fun x => [x]) ∧
      decoder.final true (txRun c run) = false ∧
      (∀ x ∈ mids, x.sysex = .mid) ∧ end_.sysex = .end_ ∧
      (mids ++ [end_]).flatMap Message.bytes = run := by
  fun_induction txRun c run with
  | case1 x y z d rest ih =>
    obtain ⟨mids, end_, h1, h2, h3, h4, h5⟩ := ih (by simp)
    obtain ⟨ho, hf⟩ := decoder_cons (decode_three hc x y z true) (txRun c (d :: rest))
    refine ⟨⟨[x, y, z], .mid⟩ :: mids, end_, ?_, hf.trans h2, ?_, h4, ?_⟩
    · rw [ho, h1]; rfl
    · exact List.forall_mem_cons.2 ⟨rfl, h3⟩
    · rw [List.cons_append, List.flatMap_cons, h5]; rfl
  | case2 last hs =>
    have hstep := decode_end hc (List.length_pos_of_ne_nil h) (length_le_three hs) true
    obtain ⟨ho, hf⟩ := decoder_cons hstep []
    exact ⟨[], ⟨last, .end_⟩, ho, hf, by simp, rfl, by simp⟩

/-- The packet of a message of one to three bytes leaves the SysEx bit alone. -/
theorem decode_encoded {m : List UInt8} {pkt : Um9Packet} (h : um9PacketEncode c m = some pkt)
    (b : Bool) : m.getD 0 0 ≠ 0xF0 ∧
      decodeStep b (.ofNibbles pkt.cable pkt.cin m) = (b, [⟨m, .none⟩]) := by
  obtain ⟨-, -, -, cin, hs, rfl⟩ := um9PacketEncode_eq_some.1 h
  obtain ⟨hn, hlen, hspec⟩ := um9CinForStatus_spec (UInt8.toNat_lt _) hs
  refine ⟨?_, ?_⟩
  · intro h0
    rw [h0, show um9CinForStatus (0xF0 : UInt8).toNat = none from rfl] at hs
    exact absurd hs (by simp)
  · rw [decodeStep_message _ (by rwa [EventPacket.cin_ofNibbles hc hn]),
      EventPacket.payload_ofNibbles hc hn hlen.symm]

/-- **One message.**  Outside a run, the decoder turns a message's packets into
    a group that stands for it, and is outside a run again. -/
theorem decode_txRows {m : List UInt8} {ps : List EventPacket} (h : txRows c m = some ps) :
    ∃ g, Received m g ∧ decoder.outs false ps = g.map (fun x => [x]) ∧
      decoder.final false ps = false := by
  unfold txRows at h
  split_ifs at h with h15 hrun heox
  · obtain rfl := Option.some.inj h
    obtain ⟨h0, h2, -⟩ := hrun
    by_cases h3 : m.length ≤ 3
    · have hstep := decode_end hc (by omega) h3 false
      rw [if_pos ⟨rfl, h0⟩] at hstep
      rw [txRun_short h3]
      exact ⟨_, .shortRun h0 h3, decoder_cons hstep []⟩
    · obtain ⟨x, y, z, d, rest, rfl⟩ : ∃ x y z d rest, m = x :: y :: z :: d :: rest := by
        by_contra hn
        exact h3 (length_le_three fun x y z d rest he => hn ⟨x, y, z, d, rest, he⟩)
      obtain ⟨mids, end_, h1, hf1, hm, he, hb⟩ := decode_txRun hc (List.cons_ne_nil d rest)
      obtain ⟨ho, hf⟩ := decoder_cons (decode_three hc x y z false) (txRun c (d :: rest))
      have hstart : (Message.mk [x, y, z] .start).sysex = .start := rfl
      refine ⟨_, .longRun h0 (by simp) hstart hm he ?_, ?_, hf.trans hf1⟩
      · rw [List.flatMap_cons, hb]; rfl
      · rw [txRun, ho, h1]; rfl
  · obtain rfl := Option.some.inj h
    subst heox
    have hlen : [(0xF7 : UInt8)].length = 1 := rfl
    exact ⟨_, .eox, decoder_cons (decode_end hc hlen.ge (by rw [hlen]; decide) false) []⟩
  · obtain ⟨pkt, hp, rfl⟩ := Option.map_eq_some_iff.1 h
    obtain ⟨h0, hstep⟩ := decode_encoded hc hp false
    exact ⟨_, .message h0 heox, decoder_cons hstep []⟩

/-- A list of messages. -/
theorem decode_messages {msgs : List (List UInt8)} {pss : List (List EventPacket)}
    (h : List.Forall₂ (Encodes c) msgs pss) :
    ∃ gs, List.Forall₂ Received msgs gs ∧
      decoder.outs false pss.flatten = gs.flatten.map (fun x => [x]) ∧
      decoder.final false pss.flatten = false := by
  induction h with
  | nil => exact ⟨[], .nil, rfl, rfl⟩
  | @cons m ps msgs pss hm _ ih =>
    obtain ⟨g, hg, ho, hf⟩ := decode_txRows hc (encodes_iff.1 hm)
    obtain ⟨gs, hgs, hos, hfs⟩ := ih
    refine ⟨g :: gs, .cons hg hgs, ?_, ?_⟩
    · rw [List.flatten_cons, Mealy.outs_append, ho, hf, hos, List.flatten_cons, List.map_append]
    · rw [List.flatten_cons, Mealy.final_append, hf, hfs]

theorem encodes_cable {msgs : List (List UInt8)} {pss : List (List EventPacket)}
    (h : List.Forall₂ (Encodes c) msgs pss) : ∀ p ∈ pss.flatten, p.cable = c := by
  induction h with
  | nil => simp
  | cons hm _ ih =>
    simp only [List.flatten_cons, List.mem_append]
    exact fun p hp => hp.elim (txRows_cable hc (encodes_iff.1 hm) p) (ih p)

/-- An inserted message is decoded on the spot and leaves the SysEx bit alone. -/
theorem decode_oneByte {st : UInt8} (hst : IsOneByte st) {p : EventPacket}
    (h : Encodes c [st] [p]) (b : Bool) : decoder.step b p = (b, [⟨[st], .none⟩]) := by
  have hrun : ¬IsRun [st] := fun hr => absurd hr.2.1 (by simp)
  have heox : [st] ≠ [0xF7] := fun he => by
    obtain rfl : st = 0xF7 := by simpa using he
    revert hst; unfold IsOneByte; decide
  have hp := encodes_iff.1 h
  rw [txRows, if_neg (Nat.not_lt.2 (Nat.le_of_lt_succ hc)), if_neg hrun, if_neg heox] at hp
  obtain ⟨pkt, he, hp⟩ := Option.map_eq_some_iff.1 hp
  obtain rfl := List.singleton_inj.1 hp
  exact (decode_encoded hc he b).2

end

/-! ## Streams of messages -/

/-- **Round trip.**  The messages `msgs` are encoded as the packet lists `pss`,
    the interleaving `l` inserts one-byte system messages between their packets,
    and a fresh stream is fed the result, every pending message being taken
    after each packet. -/
theorem rx_tx_roundTrip (s : RxStream) {c : ℕ} (hc : c ≤ um9MaxCable) {msgs : List (List UInt8)}
    {pss : List (List EventPacket)} (h : List.Forall₂ (Encodes c) msgs pss)
    {l : List (EventPacket ⊕ UInt8 × EventPacket)} (hl : Mealy.lefts l = pss.flatten)
    (hr : ∀ x ∈ Mealy.rights l, IsOneByte x.1 ∧ Encodes c [x.1] [x.2]) :
    let ps := Mealy.merged Prod.snd l
    let outs := um9Feed.outs (um9RxInit s c) ps
    (∃ gs, List.Forall₂ Received msgs gs ∧
        Mealy.atLefts l outs = gs.flatten.map (fun x => [x])) ∧
      Mealy.atRights l outs = (Mealy.rights l).map (fun x => (x, [⟨[x.1], .none⟩])) ∧
      (um9Feed.final (um9RxInit s c) ps).inSysex = false := by
  have hc' : c < 16 := Nat.lt_succ_of_le hc
  have hcab : ∀ p ∈ Mealy.merged Prod.snd l, p.cable = c := by
    intro p hp
    rcases Mealy.mem_merged hp with hp | ⟨x, hx, rfl⟩
    · exact encodes_cable hc' h p (hl ▸ hp)
    · exact txRows_cable hc' (encodes_iff.1 (hr x hx).2) _ (by simp)
  obtain ⟨ho, -, hf⟩ := feed_eq_decoder (um9RxInit_idle s hc) hcab
  obtain ⟨h1, h2, h3⟩ := Mealy.outs_merged (M := decoder) (g := Prod.snd)
    (f := fun x => [⟨[x.1], .none⟩]) (l := l)
    (fun x hx b => decode_oneByte hc' (hr x hx).1 (hr x hx).2 b) false
  obtain ⟨gs, hgs, hos, hfs⟩ := decode_messages hc' h
  have hin : (um9RxInit s c).inSysex = false := rfl
  rw [hin] at ho hf
  simp only [ho, hf]
  exact ⟨⟨gs, hgs, by rw [h1, hl, hos]⟩, h2, by rw [h3, hl, hfs]⟩

/-- A ten-byte run with a Timing Clock inside it, then a Note On. -/
theorem rx_tx_roundTrip_clock :
    let run : List UInt8 := [0xF0, 1, 2, 3, 4, 5, 6, 7, 8, 0xF7]
    let l : List (EventPacket ⊕ UInt8 × EventPacket) :=
      [.inl ⟨0x24, 0xF0, 1, 2⟩, .inl ⟨0x24, 3, 4, 5⟩, .inr (0xF8, ⟨0x25, 0xF8, 0, 0⟩),
        .inl ⟨0x24, 6, 7, 8⟩, .inl ⟨0x26, 0xF7, 0, 0⟩, .inl ⟨0x2A, 0x91, 0x3C, 0x40⟩]
    (∃ gs, List.Forall₂ Received [run, [0x91, 0x3C, 0x40]] gs ∧
        Mealy.atLefts l (um9Feed.outs (um9RxInit default 2) (Mealy.merged Prod.snd l)) =
          gs.flatten.map (fun x => [x])) ∧
      Mealy.atRights l (um9Feed.outs (um9RxInit default 2) (Mealy.merged Prod.snd l)) =
        (Mealy.rights l).map (fun x => (x, [⟨[x.1], .none⟩])) ∧
      (um9Feed.final (um9RxInit default 2) (Mealy.merged Prod.snd l)).inSysex = false :=
  have hrun : Encodes 2 [0xF0, 1, 2, 3, 4, 5, 6, 7, 8, 0xF7]
      [⟨0x24, 0xF0, 1, 2⟩, ⟨0x24, 3, 4, 5⟩, ⟨0x24, 6, 7, 8⟩, ⟨0x26, 0xF7, 0, 0⟩] :=
    encodes_iff.2 (by decide)
  have hnote : Encodes 2 [0x91, 0x3C, 0x40] [⟨0x2A, 0x91, 0x3C, 0x40⟩] := encodes_iff.2 (by decide)
  rx_tx_roundTrip default (by decide) (.cons hrun (.cons hnote .nil)) rfl (by
    simp only [Mealy.rights, List.forall_mem_singleton]
    exact ⟨.inr (by decide), encodes_iff.2 (by decide)⟩)

end Usbmidi9
