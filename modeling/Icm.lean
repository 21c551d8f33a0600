import Icm.Messaging.SubscribeClient
import Icm.Java.Interop
import Icm.Java.Selector
import Icm.Messaging.Delivery
import Icm.Messaging.Forwarding
import Icm.Messaging.Messages
import Icm.Java.Dispatcher
import Icm.Java.MutiClient
import Icm.Java.Truncated
import Icm.Messaging.Listing
import Icm.Messaging.Restart
import Icm.Messaging.Directory
import Icm.Messaging.BodyRoom
import Icm.Messaging.PublisherThread
import Icm.Messaging.RoundTrip
import Icm.Rpc.Ownership
import Icm.Rpc.ObjectAdapter
import Icm.Stream.Vectors
import Icm.Stream.Consolidate
import Icm.Stream.LongDouble
import Icm.Rpc.Wait
import Icm.Rpc.Svc
import Icm.Stream.Sharing
import Icm.Timer.TimerQueue
import Icm.Timer.Timeout
import Icm.Rpc.TcpTransport
import Icm.Reactor.ReadyEvents
import Icm.Queue.MessageQueue
import Icm.Config.Configuration
import Icm.Java.Reflection
import Icm.Java.EndOfStream
import Icm.Java.LongInvoke
import Icm.Java.Acknowledged
import Icm.Stream.SizeT
import Icm.Java.FactoryStrings
import Icm.Java.ChannelPool
import Icm.Java.FirstSubscriber
