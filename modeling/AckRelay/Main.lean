import AckRelay.Broker.OfflineClient
import AckRelay.Session.Run

/-!
The command line. Settings come from the environment, the host's frames from standard input; frames
for the host go to standard output and the report of a failure to standard error. The client has no
connection to a cluster.
-/

namespace AckRelay.Main

def environment : IO Environment := do
  let texts ← Settings.variableNames.mapM fun name => do return (name, ← IO.getEnv name)
  return fun name => (texts.lookup name).join

partial def listen (input : IO.FS.Stream) (inbox : IO.Ref (List Arrival)) : IO Unit := do
  let chunk ← input.read 65536
  if chunk.isEmpty then inbox.modify (· ++ [.endOfInput])
  else
    inbox.modify (· ++ [.bytes chunk.data.toList])
    listen input inbox

def flush (s : Session OfflineClient) : IO (Session OfflineClient) := do
  let (bytes, s) := s.takeOutput
  unless bytes.isEmpty do
    let output ← IO.getStdout
    output.write bytes.toByteArray
    output.flush
  return s

partial def follow (inbox : IO.Ref (List Arrival)) (last : Nat) (s : Session OfflineClient) :
    IO (Session OfflineClient) := do
  let s ← flush s
  if s.isRunning then
    IO.sleep s.relay.pollTimeout.toUInt32
    let arrivals ← inbox.swap []
    let now ← IO.monoMsNow
    follow inbox now ((arrivals.foldl (fun s a => s.receive a) s).step (now - last))
  else return s

def report (f : Failure) : IO UInt32 := do
  IO.eprintln f.report
  return 1

end AckRelay.Main

open AckRelay in
/-- Runs one session. The exit status is 1 if it failed, and 101 if the program died of a sum. -/
def main : IO UInt32 := do
  match Session.begin (← Main.environment) ({} : OfflineClient) with
  | .error f => Main.report f
  | .ok s =>
    let inbox ← IO.mkRef []
    let _ ← IO.asTask (Main.listen (← IO.getStdin) inbox)
    let s ← Main.follow inbox (← IO.monoMsNow) s
    match s.failure? with
    | some f => Main.report f
    | none => return if s.ending = .crashed then 101 else 0
