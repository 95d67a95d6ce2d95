import Engine3.Library.Exec
import Engine3.Proto.BasePacketHandler

/-!
# What handling a payload leaves alone

The handlers of the two channels pass messages on and collect fragments. Whether they
return or throw, nothing else of the session changes.
-/
namespace Engine3.BasePacketHandler

open Exec List

def withPayload (s other : Session) : Session :=
  { s with
    messages := other.messages
    client := { s.client with fragmentedPacket := other.client.fragmentedPacket } }

def PayloadOnly {α : Type} (m : HandlerM α) : Prop := ∀ s, Commutes (withPayload s) m

variable {α β : Type} {s : Session} {R : Session → Session → Prop} {drain : HandlerM Unit}
  {env : Env} {datagram : List UInt8}

theorem parse_ok_iff (m : StreamM α) (pack pack' : Stream) (s s' : Session) (a : α) :
    parse m pack s = .ok (a, pack') s' ↔ m pack = .ok a pack' ∧ s' = s := by
  simp only [parse]
  cases m pack with
  | ok b moved =>
    constructor
    · intro ret
      cases ret
      exact ⟨rfl, rfl⟩
    · rintro ⟨eq, rfl⟩
      cases eq
      rfl
  | error e moved => simp

theorem parse_of_ok {m : StreamM α} {pack pack' : Stream} {a : α} (read : m pack = .ok a pack') :
    parse m pack s = .ok (a, pack') s :=
  (parse_ok_iff m pack pack' s s a).mpr ⟨read, rfl⟩

theorem parse_preserves (refl : ∀ s, R s s) (m : StreamM α) (pack : Stream) :
    Preserves R (parse m pack) := by
  intro s
  simp only [parse]
  cases m pack with
  | ok a moved => exact refl s
  | error e moved => exact refl s

theorem baseMessage_preserves (refl : ∀ s, R s s) (pack : Stream) (startoffs endoffs : Int) :
    Preserves R (baseMessage pack startoffs endoffs) := by
  intro s
  simp only [baseMessage]
  split
  · exact refl s
  split
  · exact refl s
  split
  · exact refl s
  · exact refl s

theorem parseBlockSize_preserves (refl : ∀ s, R s s) (trans : ∀ a b c, R a b → R b c → R a c)
    (pack : Stream) :
    Preserves R (parseBlockSize pack) := by
  apply Preserves.bind trans (parse_preserves refl _ pack)
  rintro ⟨blockSize, pack⟩
  apply Preserves.ite
  · exact parse_preserves refl _ pack
  · exact Preserves.pure refl _

/-! ### The handlers of the channels -/

theorem PayloadOnly.final {m : HandlerM α} (only : PayloadOnly m) (s : Session) :
    finalState (m s) = withPayload s (finalState (m s)) := by
  have self : m s = mapState (withPayload s) (m s) := only s s
  exact (congrArg finalState self).trans (finalState_mapState _ _)

theorem parse_payloadOnly (m : StreamM α) (pack : Stream) : PayloadOnly (parse m pack) := by
  intro r s
  simp only [parse]
  cases m pack <;> rfl

theorem baseMessage_payloadOnly (pack : Stream) (startoffs endoffs : Int) :
    PayloadOnly (baseMessage pack startoffs endoffs) := by
  intro r s
  simp only [baseMessage]
  split_ifs <;> rfl

theorem processMessage_payloadOnly (env : Env) (message : List UInt8) :
    PayloadOnly (processMessage env message) := by
  intro r s
  simp only [processMessage, withPayload]
  cases env.processMessage s.messages message <;> rfl

theorem parseBlockSize_payloadOnly (pack : Stream) : PayloadOnly (parseBlockSize pack) := by
  intro r
  apply Commutes.bind (parse_payloadOnly _ pack r)
  rintro ⟨blockSize, pack⟩
  exact Commutes.ite (parse_payloadOnly _ pack r) (Commutes.pure _)

theorem dataChannelBlocks_payloadOnly (env : Env) (fuel : Nat) (pack : Stream) :
    PayloadOnly (dataChannelBlocks env fuel pack) := by
  intro r
  induction fuel generalizing pack with
  | zero => exact Commutes.pure ()
  | succ fuel ih =>
    apply Commutes.ite _ (Commutes.pure ())
    apply Commutes.bind (parseBlockSize_payloadOnly pack r)
    rintro ⟨blockSize, pack⟩
    apply Commutes.bind (baseMessage_payloadOnly _ _ _ r)
    intro message
    apply Commutes.bind (processMessage_payloadOnly env message r)
    intro _
    apply Commutes.bind (parse_payloadOnly _ pack r)
    rintro ⟨_, pack⟩
    exact ih pack

theorem handleDataChannelPacket_payloadOnly (env : Env) (pack : Stream) :
    PayloadOnly (handleDataChannelPacket env pack) := by
  intro r
  apply Commutes.bind (parse_payloadOnly _ pack r)
  rintro ⟨opCount, pack⟩
  apply Commutes.ite (dataChannelBlocks_payloadOnly env _ pack r)
  apply Commutes.bind (baseMessage_payloadOnly _ _ _ r)
  intro message
  exact processMessage_payloadOnly env message r

theorem receiveFragmentedPacket_payloadOnly (pack : Stream) :
    PayloadOnly (onClient (BaseClient.receiveFragmentedPacket pack)) := by
  intro r s
  simp only [onClient, BaseClient.receiveFragmentedPacket, withPayload]
  cases (s.client.fragmentedPacket.getD (BaseFragmentedPacket.new none)).addFragment pack with
  | error e => rfl
  | ok result =>
    obtain ⟨added, frag⟩ := result
    cases added with
    | false => rfl
    | true =>
      cases complete : frag.isComplete with
      | error e => simp only [complete]; rfl
      | ok done => cases done <;> (simp only [complete]; rfl)

theorem receiveFragment_payloadOnly (env : Env) (pack : Stream) :
    PayloadOnly (receiveFragment env pack) := by
  intro r
  apply Commutes.bind (receiveFragmentedPacket_payloadOnly pack r)
  intro complete
  cases complete with
  | none => exact Commutes.pure ()
  | some fraggedPacket => exact handleDataChannelPacket_payloadOnly env _ r

theorem handleFragmentedPacket_payloadOnly (env : Env) (pack : Stream) :
    PayloadOnly (handleFragmentedPacket env pack) := by
  intro r s
  simp only [handleFragmentedPacket, receiveFragment_payloadOnly env pack r s]
  cases receiveFragment env pack s with
  | ok a s' => rfl
  | error e s' => cases e <;> rfl

theorem handleChannel_payloadOnly (env : Env) (channel : Channel) (pack : Stream) :
    PayloadOnly (handleChannel env channel pack) := by
  intro r
  cases channel with
  | data => exact handleDataChannelPacket_payloadOnly env pack r
  | fragment =>
    exact Commutes.bind (handleFragmentedPacket_payloadOnly env pack r) fun _ => Commutes.pure ()

theorem handOver_final (env : Env) (channel : Channel) (pack : Stream) (s : Session) :
    finalState (handOver env channel pack s) =
      withPayload { s with handed := s.handed ++ [(channel, pack.unread)] }
        (finalState (handOver env channel pack s)) :=
  (handleChannel_payloadOnly env channel pack).final _

/-! ### What was handed over stays handed over -/

def Extends (s s' : Session) : Prop := s.handed <+: s'.handed ∧ s'.errors = s.errors

theorem Extends.refl (s : Session) : Extends s s := ⟨prefix_rfl, rfl⟩

theorem Extends.trans (a b c : Session) (fst : Extends a b) (snd : Extends b c) :
    Extends a c :=
  ⟨fst.1.trans snd.1, snd.2.trans fst.2⟩

theorem PayloadOnly.extends {m : HandlerM α} (only : PayloadOnly m) : Preserves Extends m := by
  intro s
  rw [only.final s]
  exact ⟨prefix_rfl, rfl⟩

theorem onClient_extends (m : ClientM α) : Preserves Extends (onClient m) := by
  intro s
  simp only [onClient]
  cases m s.client with
  | ok a c => exact ⟨prefix_rfl, rfl⟩
  | error e c => exact ⟨prefix_rfl, rfl⟩

theorem modifyClient_extends (f : BaseClient → BaseClient) :
    Preserves Extends (modifyClient f) :=
  fun _ => ⟨prefix_rfl, rfl⟩

theorem handOver_extends (env : Env) (channel : Channel) (pack : Stream) :
    Preserves Extends (handOver env channel pack) := by
  intro s
  have recorded : Extends s { s with handed := s.handed ++ [(channel, pack.unread)] } :=
    ⟨prefix_append _ _, rfl⟩
  exact Extends.trans _ _ _ recorded ((handleChannel_payloadOnly env channel pack).extends _)

private theorem parse_then (m : StreamM α) (pack : Stream) {f : α × Stream → HandlerM β}
    (rest : ∀ r, Preserves Extends (f r)) :
    Preserves Extends (parse m pack >>= f) :=
  Preserves.bind Extends.trans (parse_preserves Extends.refl m pack) rest

private theorem baseMessage_then (pack : Stream) (i j : Int) {f : List UInt8 → HandlerM β}
    (rest : ∀ r, Preserves Extends (f r)) :
    Preserves Extends (baseMessage pack i j >>= f) :=
  Preserves.bind Extends.trans (baseMessage_preserves Extends.refl pack i j) rest

private theorem done : Preserves Extends (pure () : HandlerM Unit) := Preserves.pure Extends.refl ()

theorem processMessage_extends (env : Env) (message : List UInt8) :
    Preserves Extends (processMessage env message) :=
  (processMessage_payloadOnly env message).extends

theorem handleFragmentedPacket_extends (env : Env) (pack : Stream) :
    Preserves Extends (handleFragmentedPacket env pack) :=
  (handleFragmentedPacket_payloadOnly env pack).extends

theorem dataChannelMultiBlocks_extends (env : Env) (size fuel parsedsize : Nat) (pack : Stream) :
    Preserves Extends (dataChannelMultiBlocks env size fuel parsedsize pack) := by
  induction fuel generalizing parsedsize pack with
  | zero => exact done
  | succ fuel ih =>
    apply Preserves.ite _ done
    apply Preserves.bind Extends.trans
      (parseBlockSize_preserves Extends.refl Extends.trans pack)
    rintro ⟨blockSize, block⟩
    apply baseMessage_then
    intro message
    apply Preserves.bind Extends.trans (processMessage_extends env message)
    intro _
    apply parse_then
    rintro ⟨_, pack⟩
    exact ih _ pack

theorem handleDataChannelMultiPacket_extends (env : Env) (size : Nat) (pack : Stream) :
    Preserves Extends (handleDataChannelMultiPacket env size pack) := by
  apply parse_then
  rintro ⟨opCount, pack⟩
  apply Preserves.ite (dataChannelMultiBlocks_extends env size _ _ pack)
  apply Preserves.ite
  · apply parse_then
    rintro ⟨_, pack⟩
    apply baseMessage_then
    intro message
    exact Preserves.bind Extends.trans (handleFragmentedPacket_extends env _) fun _ => done
  apply Preserves.ite
  · apply parse_then
    rintro ⟨_, pack⟩
    exact baseMessage_then _ _ _ fun message => processMessage_extends env message
  · exact baseMessage_then _ _ _ fun message => processMessage_extends env message

theorem validateSubPacket_extends (env : Env) (validatePackets : Bool) (pack : Stream) :
    Preserves Extends (validateSubPacket env validatePackets pack) := by
  apply Preserves.ite (onClient_extends _)
  exact parse_then _ _ fun _ => Preserves.pure Extends.refl _

theorem handleSubPacket_extends (env : Env) (drains : Preserves Extends drain)
    (validatePackets : Bool) (blockSize offset opcode : Nat) (pack : Stream) :
    Preserves Extends
      (handleSubPacket env drain validatePackets blockSize offset opcode pack) := by
  have afterwards : Preserves Extends (if validatePackets then drain else pure ()) :=
    Preserves.ite drains done
  apply Preserves.ite
  · apply Preserves.bind Extends.trans (validateSubPacket_extends env validatePackets pack)
    rintro ⟨expected, pack⟩
    apply Preserves.ite _ done
    exact Preserves.bind Extends.trans (handleDataChannelMultiPacket_extends env _ pack)
      fun _ => afterwards
  apply Preserves.ite (parse_then _ _ fun _ => done)
  apply Preserves.ite (parse_then _ _ fun _ => modifyClient_extends _)
  apply Preserves.ite (parse_then _ _ fun _ => done)
  apply Preserves.ite
  · apply Preserves.bind Extends.trans (validateSubPacket_extends env validatePackets pack)
    rintro ⟨expected, pack⟩
    apply Preserves.ite _ done
    apply baseMessage_then
    intro fragPiece
    exact Preserves.bind Extends.trans (handleFragmentedPacket_extends env _) fun _ => afterwards
  · exact Preserves.ite (baseMessage_then _ _ _ fun message => processMessage_extends env message)
      done

theorem multiPacketLoop_extends (env : Env) (drains : Preserves Extends drain)
    (validatePackets : Bool) (fuel : Nat) (pack : Stream) :
    Preserves Extends (multiPacketLoop env drain validatePackets fuel pack) := by
  induction fuel generalizing pack with
  | zero => exact done
  | succ fuel ih =>
    apply Preserves.ite _ done
    apply parse_then
    rintro ⟨blockSize, pack⟩
    apply parse_then
    rintro ⟨opcode, pack⟩
    apply Preserves.bind Extends.trans (handleSubPacket_extends env drains _ _ _ _ _)
    intro _
    apply parse_then
    rintro ⟨_, pack⟩
    exact ih pack

theorem processBufferedPacket_extends (env : Env) (pack : BasePacket) :
    Preserves Extends (processBufferedPacket env pack) := by
  apply parse_then
  rintro ⟨opcode, stream⟩
  apply Preserves.ite (parse_then _ _ fun _ => multiPacketLoop_extends env done _ _ _)
  exact Preserves.ite (parse_then _ _ fun _ => handOver_extends env _ _) (handOver_extends env _ _)

theorem drainLoop_extends (env : Env) (fuel : Nat) : Preserves Extends (drainLoop env fuel) := by
  induction fuel with
  | zero => exact done
  | succ fuel ih =>
    intro s
    simp only [drainLoop]
    cases BaseClient.getBufferedPacket env s.client with
    | mk taken c =>
      cases taken with
      | none => exact Extends.refl s
      | some pack =>
        have moved : Extends s { s with client := c } := ⟨prefix_rfl, rfl⟩
        exact Extends.trans _ _ _ moved (Preserves.bind Extends.trans
          (processBufferedPacket_extends env pack) (fun _ => ih) { s with client := c })

theorem processBufferedPackets_extends (env : Env) :
    Preserves Extends (processBufferedPackets env) :=
  fun s => drainLoop_extends env _ s

theorem handleReliablePacket_extends (env : Env) (channel : Channel) (pack : Stream) :
    Preserves Extends (handleReliablePacket env channel pack) := by
  apply Preserves.bind Extends.trans (onClient_extends _)
  rintro ⟨expected, pack⟩
  apply Preserves.ite _ done
  exact Preserves.bind Extends.trans (handOver_extends env channel pack)
    fun _ => processBufferedPackets_extends env

theorem handleDecoded_extends (env : Env) (opcode : Nat) (pack : Stream) :
    Preserves Extends (handleDecoded env opcode pack) := by
  apply Preserves.ite
    (multiPacketLoop_extends env (processBufferedPackets_extends env) true _ pack)
  apply Preserves.ite (modifyClient_extends _)
  apply Preserves.ite done
  apply Preserves.ite (modifyClient_extends _)
  apply Preserves.ite (handleReliablePacket_extends env .data pack)
  apply Preserves.ite (handleReliablePacket_extends env .fragment pack)
  apply Preserves.ite (parse_then _ _ fun _ => done)
  apply Preserves.ite (parse_then _ _ fun _ => modifyClient_extends _)
  apply parse_then
  rintro ⟨_, pack⟩
  exact (handleDataChannelPacket_payloadOnly env pack).extends

theorem dispatch_extends (env : Env) (pack : Stream) : Preserves Extends (dispatch env pack) := by
  apply parse_then
  rintro ⟨opcode, pack⟩
  apply Preserves.ite (parse_then _ _ fun _ => modifyClient_extends _)
  apply Preserves.ite (parse_then _ _ fun _ => modifyClient_extends _)
  apply Preserves.ite done
  have receives : Preserves Extends (processRecieve env pack) :=
    fun s => parse_preserves Extends.refl _ pack s
  apply Preserves.bind Extends.trans receives
  rintro ⟨decoded, pack⟩
  exact Preserves.ite (handleDecoded_extends env opcode pack) done

theorem handlePacket_extends (env : Env) (datagram : List UInt8) (s : Session) :
    s.handed <+: (handlePacket env datagram s).handed ∧
    s.errors <+: (handlePacket env datagram s).errors := by
  have grows := dispatch_extends env ⟨datagram, 0⟩ s
  rw [handlePacket]
  cases ends : dispatch env ⟨datagram, 0⟩ s with
  | ok a s' =>
    rw [ends] at grows
    exact ⟨grows.1, grows.2 ▸ prefix_rfl⟩
  | error e s' =>
    rw [ends] at grows
    obtain ⟨prefixed, eq⟩ := grows
    change s'.errors = s.errors at eq
    refine ⟨prefixed, ?_⟩
    simp only [eq]
    exact prefix_append _ _

theorem dispatch_of_unlogged (unlogged : (handlePacket env datagram s).errors = s.errors) :
    dispatch env ⟨datagram, 0⟩ s = .ok () (handlePacket env datagram s) := by
  have eq := (dispatch_extends env ⟨datagram, 0⟩ s).2
  rw [handlePacket] at unlogged ⊢
  cases ends : dispatch env ⟨datagram, 0⟩ s with
  | ok a s' => rfl
  | error e s' =>
    rw [ends] at unlogged eq
    change s'.errors = s.errors at eq
    simp only [eq] at unlogged
    exact absurd unlogged (by simp)

theorem dispatch_of_quiet (quiet : (handlePacket env datagram s).errors = []) :
    dispatch env ⟨datagram, 0⟩ s = .ok () (handlePacket env datagram s) := by
  have before := (handlePacket_extends env datagram s).2
  rw [quiet] at before
  exact dispatch_of_unlogged (quiet.trans (prefix_nil.mp before).symm)

theorem handleDataChannelPacket_single (env : Env) (pack : Stream) (first : Nat)
    (rest : List UInt8) (body : pack.unread = Bytes.leBytes 2 first ++ rest)
    (single : first % 65536 ≠ 0x1900) (s : Session) :
    handleDataChannelPacket env pack s = processMessage env pack.unread s := by
  have read := Stream.readShort_unread pack first rest body
  have length : pack.size - pack.offset = 2 + rest.length := by
    have := congrArg List.length body
    simpa [Stream.unread, Stream.size] using this
  have message : baseMessage (pack.advance 2) (((pack.advance 2).offset : Int) - 2)
      (pack.advance 2).size s = .ok pack.unread s := by
    have start : ((pack.advance 2).offset : Int) - 2 = pack.offset := by
      simp only [Stream.advance]
      omega
    have size : (pack.advance 2).size = pack.size := rfl
    have bytes : (pack.advance 2).elementData = pack.elementData := rfl
    rw [baseMessage, start, size, bytes, if_neg (by omega), if_neg (by omega), if_neg (by omega),
      Int.toNat_natCast, take_of_length_le]
    · rfl
    · simp only [length_drop, Stream.size] at length ⊢
      omega
  refine (bind_of_ok (parse_of_ok read)).trans ?_
  refine (ite_run_neg single).trans ?_
  exact (bind_of_ok message).trans rfl

end Engine3.BasePacketHandler
