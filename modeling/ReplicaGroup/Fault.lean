import ReplicaGroup.Address
import ReplicaGroup.Identifier
import ReplicaGroup.Key

/-! # Faults

Everything that can go wrong, by cause, and the one text that each cause is reported with. -/

namespace ReplicaGroup

/-- Why bytes are not the encoding of a value. -/
inductive DecodeError where
  /-- The bytes end before the value does. -/
  | tooShort
  /-- A text is not UTF-8. -/
  | invalidText
  /-- A truth value is neither 0 nor 1. -/
  | invalidFlag
  /-- The mark before a value that may be missing is neither 0 nor 1. -/
  | invalidPresence
  /-- The tag of an alternative is none of the known ones. -/
  | unknownAlternative
deriving DecidableEq, Inhabited

/-- The name of a decoding error. -/
def DecodeError.text : DecodeError → String
  | tooShort => "Io"
  | invalidText => "InvalidUtf8Encoding"
  | invalidFlag => "InvalidBoolEncoding"
  | invalidPresence => "InvalidTagEncoding"
  | unknownAlternative => "Custom"

/-- Why a transfer did not succeed. -/
inductive TransferFault where
  /-- Its owner stopped it while it was running. -/
  | stopped
  /-- Its metadata gives no version to capture the state at. -/
  | noVersion
  /-- Storage answered the capture with something else than entries. -/
  | notCaptured (range : KeyRange)
  /-- No grant came in time. -/
  | noGrant
  /-- No data came in time. -/
  | noData
  /-- It ended well, but its metadata lacks the snapshot or the version. -/
  | incomplete (metadata : Metadata)
deriving DecidableEq, Inhabited

/-- The text of a transfer's fault, to be read after the transfer's name. -/
def TransferFault.text : TransferFault → String
  | stopped => "stopped before completion"
  | noVersion => "has no version to capture"
  | notCaptured range => "failed to capture " ++ range.text
  | noGrant => "timed out waiting for clear-to-send"
  | noData => "timed out waiting for data"
  | incomplete metadata => "completed without snapshot and version ids: " ++ metadata.text

/-- Why something failed. -/
inductive Fault where
  /-- Nobody reads the channel that a message was sent to. -/
  | channelClosed
  /-- Nobody is left to send the message that was waited for. -/
  | sourceClosed
  /-- A promised reply will never come. -/
  | replyLost
  /-- No inbox is registered under the address. -/
  | unknownDestination (addr : Addr)
  /-- There is no version after this one. -/
  | versionExhausted (version : Version)
  /-- A transfer failed. -/
  | transfer (id : TransferId) (fault : TransferFault)
  /-- A message could not be decoded. -/
  | malformed (error : DecodeError)
  /-- A range action or a supervised job failed with a text of its own. -/
  | raised (text : String)
deriving DecidableEq, Inhabited

/-- The text of a fault; `name` names transfers. -/
def Fault.message (name : TransferId → String) : Fault → String
  | channelClosed => "unexpected event channel closing"
  | sourceClosed => "unexpected source closing"
  | replyLost => "channel closed"
  | unknownDestination addr => "unknown destination " ++ addr.text
  | versionExhausted version => "version id " ++ toString version.toNat ++ " exhausted"
  | transfer id fault => "transfer " ++ name id ++ " " ++ fault.text
  | malformed error => error.text
  | raised text => text

end ReplicaGroup
