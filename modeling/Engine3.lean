import Engine3.Proto.Checksum
import Engine3.Proto.PacketBounds
import Engine3.Proto.SubPackets
import Engine3.Proto.ReceiveFaults
import Engine3.Proto.OverlappingSenders
import Engine3.Proto.WireSize
import Engine3.Proto.ReliableChannel
import Engine3.Orb.MessageFraming
import Engine3.Core.TimedTaskRuns
import Engine3.Util.LruRuns
import Engine3.Util.PathSearch
import Engine3.Util.Funnel
import Engine3.Util.AABBTree
import Engine3.Proto.CheckupTime
import Engine3.System.UnicodeRuns
import Engine3.System.StreamCursor
import Engine3.System.ReferenceCount
import Engine3.System.SmallStringRuns
import Engine3.System.HashTableMoves
import Engine3.Core.TaskQueue
import Engine3.System.HashedNames
import Engine3.System.StringText
import Engine3.System.StringReplace
import Engine3.System.Tokenizers
import Engine3.Db.BinaryData
import Engine3.Db.SecondaryIndex
import Engine3.Db.Compression
import Engine3.Util.IffHostile
import Engine3.Util.IffCursor
import Engine3.Util.ObserverEventMap
import Engine3.Util.QuadTreeOutside
import Engine3.Util.OcTree
import Engine3.Orb.SaveHandshake
