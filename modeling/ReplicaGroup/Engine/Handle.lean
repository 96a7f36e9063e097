import ReplicaGroup.Engine.Apply

/-! # Handling events

What an engine does when it is told something. -/

namespace ReplicaGroup.Engine

/-- Starts to serve a range as the only replica that has it. -/
def bootstrap (h : Host) (change : ViewChange) (e : Engine) : Step :=
  { e with
    view := change.view, quorum := change.quorum, range := change.range, version := 1,
    mode := .active }.tell h .synced

/-- Proposes an operation of a client, unless it is known that it will not be supported. Before the
    replica joins, nothing is proposed. -/
def submit (h : Host) (op : Operation) (e : Engine) : Step :=
  if e.mode = .passive then e.done
  else if (Rule.find? e.mode op.kind).isNone then e.respond h ⟨op.id, .failed .unsupported⟩
  else e.propose h (.op op)

/-- Proposes a move to a newer view. -/
def proposeView (h : Host) (change : ViewChange) (e : Engine) : Step :=
  if change.view.isNewerThan e.view then
    let (number, e) := e.draw h
    e.propose h (.reconfigure ⟨⟨number⟩, change.view, change.quorum, e.version, change.range⟩)
  else e.done

/-- Proposes that every serving replica reports the size of a range. -/
def proposeScan (h : Host) (range : KeyRange) (e : Engine) : Step :=
  let (number, e) := e.draw h
  e.propose h (.scan ⟨number⟩ range)

/-- What a response of storage means for the client or the log. -/
def finishRequest (h : Host) (r : Response) (e : Engine) : Step :=
  match r with
  | .get id key value? => e.respond h ⟨id, .get key value?⟩
  | .scan result => e.respond h ⟨result.id, .range result.results result.more⟩
  | .multi id met => e.respond h ⟨id, .multi met⟩
  | .size range bytes keys => e.tell h (.size range bytes keys)
  | .snapshot position => { e with lastSnapshot := max e.lastSnapshot position }.prune h
  | .failed id => e.respond h ⟨id, .failed .failure⟩
  | .done => e.done

/-- Takes a response of storage; a change of sizes is told first. -/
def stored (h : Host) (r : Response) (e : Engine) : Step :=
  let told := match r.delta? with
    | some d => e.tell h (.delta d)
    | none => e.done
  told.andThen (finishRequest h r)

/-- Passes a transfer message to the transfer it is for. A grant goes to the sending transfer it names,
    everything else to the receiving transfer; before the replica joins, an announcement is held. -/
def route (h : Host) (m : Message) (e : Engine) : Step :=
  match m, e.mode with
  | .grant id _, _ => if id ∈ e.outgoing then e.deliver h id m else e.done
  | .initiate announced, .passive => { e with held? := some announced }.done
  | m, _ =>
    match e.incoming? with
    | some id => e.deliver h id m
    | none => e.done

/-- Stops a transfer. -/
def stopTransfer (id : TransferId) (e : Engine) : Step := { engine := e, effects := [.stopTransfer id] }

/-- Proposes the marker of a received state. -/
def proposeMarker (h : Host) (snapshot : Position) (version : Version) (e : Engine) : Step :=
  let (number, e) := e.draw h
  let marker : OpId := ⟨number⟩
  { e with syncing? := some ⟨marker, snapshot, version⟩ }.propose h (.syncedUp marker)

/-- Takes the end of a transfer's run, and stops the transfer. A completed receive is followed by a
    marker, which is decided after every write that the received state may lack. -/
def finishTransfer (h : Host) (c : Completion) (e : Engine) : Step :=
  match c.role with
  | .send => if c.id ∈ e.outgoing then e.stopTransfer c.id else e.done
  | .receive =>
    if e.incoming? = some c.id then
      (e.stopTransfer c.id).andThen fun e =>
        match c.outcome with
        -- The replica stays behind: nothing starts another transfer.
        | .error _ => e.done
        | .ok metadata =>
          match metadata.snapshot?, metadata.version? with
          | some snapshot, some version =>
            if e.mode = .catchingUp then e.proposeMarker h snapshot version else e.done
          | _, _ => e.fail (.transfer c.id (.incomplete metadata))
    else e.done

/-- Forgets a transfer that has stopped. -/
def releaseTransfer (id : TransferId) (e : Engine) : Step :=
  if id ∈ e.outgoing then
    { engine := { e with outgoing := e.outgoing.filter (· ≠ id) }.finishTransferring
      effects := [.releaseTransfer id] }
  else if e.incoming? = some id then
    { engine := { e with incoming? := none }, effects := [.releaseTransfer id] }
  else e.done

/-- Stops all transfers. -/
def shutdown (e : Engine) : Step :=
  { engine := e, effects := (e.outgoing ++ e.incoming?.toList).map .stopTransfer }

/-- Handles an event. -/
def handle (h : Host) (event : Event) (e : Engine) : Step :=
  match event with
  | .submit op => e.submit h op
  | .decide decisions => (Step.forEach (decide h) decisions e).andThen (prune h)
  | .changeView change => e.proposeView h change
  | .measure range => e.proposeScan h range
  | .stored response => e.stored h response
  | .message m => e.route h m
  | .completed c => e.finishTransfer h c
  | .stopped id => e.releaseTransfer id
  | .stop => e.shutdown

end ReplicaGroup.Engine
