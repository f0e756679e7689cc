import Companion.Bridge.ReplyStart
import Companion.Bridge.Throttle
import Companion.Chat.Aging
import Companion.Chat.Idempotence
import Companion.Chat.Migration
import Companion.Chat.Pass2Queue
import Companion.Consolidation.Accounting
import Companion.Consolidation.DamagedLines
import Companion.Consolidation.ExactRepeat
import Companion.Emotion.Backup
import Companion.Emotion.EarlyOut
import Companion.Emotion.FoldOrder
import Companion.Emotion.OffDays
import Companion.Emotion.Saved
import Companion.Emotion.Tracking
import Companion.FeltTime.Anchors
import Companion.Files.Memories
import Companion.Forgetting.MergedText
import Companion.Growth.Reflex
import Companion.Heartbeat.Tick
import Companion.Ingest.Archive
import Companion.Ingest.CompactionLock
import Companion.Ingest.Extraction
import Companion.Ingest.Pieces
import Companion.Ingest.Resumption
import Companion.Initiate.CalibrationCloser
import Companion.Initiate.AuditRewrite
import Companion.Initiate.IgnoreStreak
import Companion.Initiate.ReplyLag
import Companion.Initiate.Numbering
import Companion.Kindled.Agreement
import Companion.Kindled.Canonical
import Companion.Kindled.Delivery
import Companion.Kindled.Disclosure
import Companion.Kindled.EmotionWindow
import Companion.Kindled.Mailbox
import Companion.Kindled.OneSession
import Companion.Kindled.Rekey
import Companion.Kindled.Replay
import Companion.Kindled.Replies
import Companion.Kindled.Rotation
import Companion.Kindled.Sealed
import Companion.Kindled.Slots
import Companion.Kindled.Tighten
import Companion.Kindled.Transcript
import Companion.Kindled.Worker
import Companion.Memory.Activation
import Companion.Memory.CalibrationLog
import Companion.Memory.CostSeries
import Companion.Memory.KeywordWalk
import Companion.Memory.KnownNames
import Companion.Memory.RowEmbedding
import Companion.Narrative.Recovery
import Companion.Soul.Review
import Companion.Storage.Jsonl
import Companion.Storage.Rotation
import Companion.Storage.Saves
import Companion.Storage.Tail
import Companion.Update.Overlay
import Companion.Utils.LlmOutput
import Companion.Narrative.Replay
import Companion.Memory.FloorCalibration
import Companion.Bridge.CentralCadence
import Companion.Attunement.LearnedPatterns
import Companion.Memory.RerankWidth
import Companion.Memory.SemanticRecall
import Companion.Memory.RecallResults
